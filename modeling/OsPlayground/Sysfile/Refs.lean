import OsPlayground.File.Safe
import OsPlayground.Lib.Triple
import OsPlayground.Sysfile.Calls

/-!
# Reference counts

* `Holds a c b l k`: what is true of the tables while a system call holds the references `l` to
  inodes and `k` to files.
* `iget_spec`, `idup_spec`, `iput_spec`, `fileclose_spec`: what takes and drops references.
* `namex_spec`, `create_spec`: path names.
-/

namespace OsPlayground

namespace Sysfile

open Lib
open Fs (Store T_DIR)

/-! ## Counting -/

/-- The number of `FD_INODE` files of the entry `e`. -/
def inodeFiles (t : Files) (e : ℕ) : ℕ :=
  ∑ f : Fin NFILE, if (t.file f).type = .inode ∧ (t.file f).ip = e then 1 else 0

/-- The number of processes whose current directory is the entry `e`. -/
def cwds (c : Slot → Option ℕ) (e : ℕ) : ℕ := ∑ p : Slot, if c p = some e then 1 else 0

/-- An open file is an end of the pipe in a page. -/
def IsEnd (page : ℕ) (writable : Bool) (r : File) : Prop :=
  r.type = .pipe ∧ r.pipe = page ∧ r.writable = writable

instance (page : ℕ) (writable : Bool) (r : File) : Decidable (IsEnd page writable r) := by
  unfold IsEnd
  infer_instance

/-- `readopen` or `writeopen`. -/
def Ends.isOpen (r : Ends) (writable : Bool) : Bool := if writable then r.writeopen else r.readopen

/-- The tables while a system call holds the references `l` to inodes and `k` to files. Only the
descriptors in `a` are in use, `c` gives the current directories, and the file `b` is in a descriptor
before it has a type. -/
structure Holds (a : Slot → Fin NOFILE → Prop) (c : Slot → Option ℕ) (b : Option (Fin NFILE))
    (l : List ℕ) (k : List (Fin NFILE)) (s : Sys) : Prop where
  files : s.files.Counted k
  free : ∀ f, (s.files.file f).ref = 0 → (s.files.file f).type = .none
  typed : ∀ f, (s.files.file f).type = .none → s.files.holders f = 0 ∨ b = some f
  blank : ∀ f, b = some f → (s.files.file f).type = .none ∧ (s.files.file f).ref ≠ 0
  cwd : s.cwd = c
  inodes : ∀ e, (s.icache e).ref = inodeFiles s.files e + cwds c e + l.count e
  room : ∀ e, 0 < (s.icache e).ref → e < NINODE
  distinct : ∀ e e', 0 < (s.icache e).ref → 0 < (s.icache e').ref →
    (s.icache e).dev = (s.icache e').dev → (s.icache e).inum = (s.icache e').inum → e = e'
  pipes : ∀ page w, (s.pipe page).isOpen w = true ↔ ∃ f, IsEnd page w (s.files.file f)
  single : ∀ page w f f', IsEnd page w (s.files.file f) → IsEnd page w (s.files.file f') → f = f'
  idle : ∀ p fd, ¬ a p fd → s.files.ofile p fd = none

section Tables

variable {a : Slot → Fin NOFILE → Prop} {c : Slot → Option ℕ} {b : Option (Fin NFILE)}
  {l l' : List ℕ} {k : List (Fin NFILE)} {s s' : Sys} {t : Files} {e : ℕ} {p : Slot} {fd : Fin NOFILE} {f : Fin NFILE}

@[simp] theorem setEntry_fs (g : Entry → Entry) : (s.setEntry e g).fs = s.fs := rfl
@[simp] theorem setEntry_files (g : Entry → Entry) : (s.setEntry e g).files = s.files := rfl
@[simp] theorem setEntry_cwd (g : Entry → Entry) : (s.setEntry e g).cwd = s.cwd := rfl
@[simp] theorem setEntry_pipe (g : Entry → Entry) : (s.setEntry e g).pipe = s.pipe := rfl

theorem setEntry_icache (g : Entry → Entry) (e' : ℕ) :
    (s.setEntry e g).icache e' = if e' = e then g (s.icache e) else s.icache e' := by
  unfold Sys.setEntry
  dsimp only
  rw [Function.update_apply]

theorem setCwd_cwd (o : Option ℕ) (q : Slot) :
    (s.setCwd p o).cwd q = if q = p then o else s.cwd q := by
  unfold Sys.setCwd
  dsimp only
  rw [Function.update_apply]

theorem setPipe_pipe (page page' : ℕ) (g : Ends → Ends) :
    (s.setPipe page g).pipe page' = if page' = page then g (s.pipe page) else s.pipe page' := by
  unfold Sys.setPipe
  dsimp only
  rw [Function.update_apply]

theorem setFile_inodeFiles (g : File → File) (e : ℕ) :
    inodeFiles (t.setFile f g) e + (if (t.file f).type = .inode ∧ (t.file f).ip = e then 1 else 0) =
      inodeFiles t e + if (g (t.file f)).type = .inode ∧ (g (t.file f)).ip = e then 1 else 0 := by
  have h := sum_change (Finset.mem_univ f)
    (f := fun i => if (t.file i).type = .inode ∧ (t.file i).ip = e then 1 else 0)
    (g := fun i => if ((t.setFile f g).file i).type = .inode ∧ ((t.setFile f g).file i).ip = e
      then 1 else 0)
    fun i _ hi => by rw [Files.setFile_file, if_neg hi]
  simp only [Files.setFile_file, if_true] at h
  simp only [inodeFiles, Files.setFile_file]
  exact h

theorem inodeFiles_congr {t' : Files} (ht : ∀ f, (t'.file f).type = (t.file f).type)
    (hi : ∀ f, (t'.file f).ip = (t.file f).ip) : inodeFiles t' = inodeFiles t := by
  funext e
  exact Finset.sum_congr rfl fun f _ => by rw [ht, hi]

theorem setCwd_cwds (o : Option ℕ) (e : ℕ) :
    cwds (s.setCwd p o).cwd e + (if s.cwd p = some e then 1 else 0) =
      cwds s.cwd e + if o = some e then 1 else 0 := by
  have h := sum_change (Finset.mem_univ p)
    (f := fun q => if s.cwd q = some e then 1 else 0)
    (g := fun q => if (s.setCwd p o).cwd q = some e then 1 else 0)
    fun q _ hq => by rw [setCwd_cwd, if_neg hq]
  simp only [setCwd_cwd, if_true] at h
  simp only [cwds, setCwd_cwd]
  exact h

theorem cwds_pos (h : c p = some e) : 0 < cwds c e := by
  have hle := Finset.single_le_sum (f := fun q => if c q = some e then 1 else 0)
    (fun _ _ => Nat.zero_le _) (Finset.mem_univ p)
  simp only [h, if_true] at hle
  exact hle

namespace Holds

theorem perm (h : Holds a c b l k s) (hl : ∀ e, l'.count e = l.count e) : Holds a c b l' k s :=
  { h with inodes := fun e => by rw [hl, h.inodes] }

theorem widen {a' : Slot → Fin NOFILE → Prop} (h : Holds a c b l k s)
    (ha : ∀ p fd, a p fd → a' p fd) : Holds a' c b l k s :=
  { h with idle := fun p fd hp => h.idle p fd fun hap => hp (ha p fd hap) }

theorem swap {x y : ℕ} (h : Holds a c b (x :: y :: l) k s) : Holds a c b (y :: x :: l) k s :=
  h.perm fun e => List.Perm.count_eq (List.Perm.swap _ _ _) e

theorem swapFiles {x y : Fin NFILE} (h : Holds a c b l (x :: y :: k) s) :
    Holds a c b l (y :: x :: k) s := by
  refine { h with files := fun f => ?_ }
  rw [h.files f, (List.Perm.swap x y k).count_eq f]

theorem congr (h : Holds a c b l k s) (hfiles : s'.files = s.files) (hcwd : s'.cwd = s.cwd)
    (hpipe : s'.pipe = s.pipe) (href : ∀ e, (s'.icache e).ref = (s.icache e).ref)
    (hdev : ∀ e, (s'.icache e).dev = (s.icache e).dev)
    (hinum : ∀ e, (s'.icache e).inum = (s.icache e).inum) : Holds a c b l k s' where
  files := hfiles ▸ h.files
  free := hfiles ▸ h.free
  typed := hfiles ▸ h.typed
  blank := hfiles ▸ h.blank
  cwd := hcwd ▸ h.cwd
  inodes e := by rw [href, hfiles, h.inodes]
  room e := by
    rw [href]
    exact h.room e
  distinct e e' := by
    simp only [href, hdev, hinum]
    exact h.distinct e e'
  pipes := hpipe ▸ hfiles ▸ h.pipes
  single := hfiles ▸ h.single
  idle := hfiles ▸ h.idle

/-- The number of references to an entry changes, and the number of those held with it. -/
theorem setRef (h : Holds a c b l k s) {g : Entry → Entry}
    (hl : ∀ e', e' ≠ e → l'.count e' = l.count e')
    (href : (g (s.icache e)).ref + l.count e = (s.icache e).ref + l'.count e)
    (hroom : 0 < (g (s.icache e)).ref → e < NINODE)
    (hdistinct : 0 < (g (s.icache e)).ref → ∀ e', e' ≠ e → 0 < (s.icache e').ref →
      (s.icache e').dev = (g (s.icache e)).dev → (s.icache e').inum ≠ (g (s.icache e)).inum) :
    Holds a c b l' k (s.setEntry e g) := by
  refine { h with inodes := fun e' => ?_, room := fun e' => ?_, distinct := fun x y => ?_ }
  · have hi := h.inodes e'
    rw [setEntry_icache, setEntry_files]
    split_ifs with he
    · rw [he] at hi ⊢
      omega
    · rw [hl e' he, hi]
  · rw [setEntry_icache]
    split_ifs with he
    · exact he ▸ hroom
    · exact h.room e'
  · simp only [setEntry_icache]
    intro hx hy hdev hinum
    split_ifs at hx hy hdev hinum with h₁ h₂ h₂
    · rw [h₁, h₂]
    · exact absurd hinum.symm (hdistinct hx y h₂ hy hdev.symm)
    · exact absurd hinum (hdistinct hy x h₁ hx hdev)
    · exact h.distinct x y hx hy hdev hinum

theorem ref_pos (h : Holds a c b l k s) (he : e ∈ l) : 0 < (s.icache e).ref := by
  have hi := h.inodes e
  have hpos := List.count_pos_iff.mpr he
  omega

theorem ref_pos_of_cwd (h : Holds a c b l k s) (hc : c p = some e) : 0 < (s.icache e).ref := by
  have hi := h.inodes e
  have hpos := cwds_pos hc
  omega

theorem bump (h : Holds a c b l k s) (hpos : 0 < (s.icache e).ref) :
    Holds a c b (e :: l) k (s.setEntry e fun r => { r with ref := r.ref + 1 }) := by
  refine h.setRef (fun e' he => List.count_cons_of_ne (Ne.symm he)) ?_ (fun _ => h.room e hpos) ?_
  · rw [List.count_cons_self]
    dsimp only
    omega
  · intro _ e' he hpos' hdev hinum
    exact he (h.distinct e' e hpos' hpos hdev hinum)

theorem drop (h : Holds a c b (e :: l) k s) :
    Holds a c b l k (s.setEntry e fun r => { r with ref := r.ref - 1 }) := by
  have hpos := h.ref_pos List.mem_cons_self
  refine h.setRef (fun e' he => (List.count_cons_of_ne (Ne.symm he)).symm) ?_
    (fun _ => h.room e hpos) ?_
  · rw [List.count_cons_self]
    dsimp only
    omega
  · intro _ e' he hpos' hdev hinum
    exact he (h.distinct e' e hpos' hpos hdev hinum)

theorem reuse {dev inum : ℕ} (h : Holds a c b l k s) (he : e < NINODE) (hzero : (s.icache e).ref = 0)
    (hnew : ∀ e', 0 < (s.icache e').ref → (s.icache e').dev = dev → (s.icache e').inum ≠ inum) :
    Holds a c b (e :: l) k
      (s.setEntry e fun r => { r with dev := dev, inum := inum, ref := 1 }) := by
  refine h.setRef (fun e' he => List.count_cons_of_ne (Ne.symm he)) ?_ (fun _ => he) ?_
  · rw [List.count_cons_self]
    dsimp only
    omega
  · exact fun _ e' _ hpos hdev => hnew e' hpos hdev

theorem lock (h : Holds a c b l k s) (v : Bool) :
    Holds a c b l k (s.setEntry e fun r => { r with locked := v }) := by
  refine h.setRef (fun _ _ => rfl) rfl (h.room e) ?_
  intro hpos e' he hpos' hdev hinum
  exact he (h.distinct e' e hpos' hpos hdev hinum)

end Holds

end Tables

/-! ## The inode cache -/

section Inodes

variable {a : Slot → Fin NOFILE → Prop} {c : Slot → Option ℕ} {b : Option (Fin NFILE)}
  {l : List ℕ} {k : List (Fin NFILE)} {e : ℕ} {p : Slot}

theorem onStore_spec {α : Type} (m : Store → Except String (α × Store)) :
    Triple (Holds a c b l k) (onStore m) fun _ => Holds a c b l k := by
  intro s x s' h hm
  unfold onStore at hm
  split at hm
  · obtain ⟨-, rfl⟩ := Prod.mk.inj (Except.ok.inj hm)
    exact h.congr rfl rfl rfl (fun _ => rfl) (fun _ => rfl) fun _ => rfl
  · cases hm

theorem inStore_spec (m : Store → Except String Store) :
    Triple (Holds a c b l k) (inStore m) fun _ => Holds a c b l k := onStore_spec _

theorem findEntry_some {dev inum : ℕ} {s : Sys} (h : findEntry dev inum s = some e) :
    0 < (s.icache e).ref ∧ (s.icache e).dev = dev ∧ (s.icache e).inum = inum := by
  simpa using List.find?_some h

theorem findEntry_none {dev inum : ℕ} {s : Sys} (h : findEntry dev inum s = none) (he : e < NINODE)
    (hpos : 0 < (s.icache e).ref) (hdev : (s.icache e).dev = dev) : (s.icache e).inum ≠ inum := by
  intro hinum
  have hno := List.find?_eq_none.mp h e (List.mem_range.mpr he)
  simp only [decide_eq_true_eq] at hno
  exact hno ⟨hpos, hdev, hinum⟩

theorem emptyEntry_some {s : Sys} (h : emptyEntry s = some e) :
    e < NINODE ∧ (s.icache e).ref = 0 :=
  ⟨List.mem_range.mp (List.mem_of_find?_eq_some h), by simpa using List.find?_some h⟩

/-- **`iget` takes one reference.** -/
theorem iget_spec (dev inum : ℕ) :
    Triple (Holds a c b l k) (iget dev inum) fun e => Holds a c b (e :: l) k := by
  refine Triple.read fun s h => ?_
  rcases hf : findEntry dev inum s with _ | e
  · dsimp only
    rcases he : emptyEntry s with _ | e
    · exact Triple.fail
    · obtain ⟨hlt, hzero⟩ := emptyEntry_some he
      refine Triple.seq (Triple.assign fun s' hs' => ?_)
        ((inStore_spec _).seq (Triple.pure fun _ h => h))
      rw [hs']
      exact h.reuse hlt hzero fun e' hpos => findEntry_none hf (h.room e' hpos) hpos
  · refine Triple.seq (Triple.assign fun s' hs' => ?_) (Triple.pure fun _ h => h)
    rw [hs']
    exact h.bump (findEntry_some hf).1

theorem idup_spec (hc : c p = some e) :
    Triple (Holds a c b l k) (idup e) fun e => Holds a c b (e :: l) k :=
  Triple.seq (R := fun e => Holds a c b (e :: l) k)
    (Triple.assign fun _ h => h.bump (h.ref_pos_of_cwd hc)) (Triple.pure fun _ h => h)

theorem acquireInode_spec (e : ℕ) :
    Triple (Holds a c b l k) (acquireInode e) fun _ => Holds a c b l k :=
  Triple.look fun _ => Triple.ite (fun _ => Triple.fail) fun _ => Triple.assign fun _ h => h.lock _

theorem releaseInode_spec (e : ℕ) :
    Triple (Holds a c b l k) (releaseInode e) fun _ => Holds a c b l k :=
  Triple.assign fun _ h => h.lock _

theorem ilock_spec (e : ℕ) : Triple (Holds a c b l k) (ilock e) fun _ => Holds a c b l k :=
  Triple.look fun _ => Triple.ite (fun _ => Triple.fail) fun _ =>
    (acquireInode_spec e).seq (inStore_spec _)

theorem iunlock_spec (e : ℕ) : Triple (Holds a c b l k) (iunlock e) fun _ => Holds a c b l k :=
  Triple.look fun _ => Triple.ite (fun _ => Triple.fail) fun _ => releaseInode_spec e

/-- **`iput` drops one reference.** -/
theorem iput_spec (e : ℕ) : Triple (Holds a c b (e :: l) k) (iput e) fun _ => Holds a c b l k := by
  refine (acquireInode_spec e).seq (Triple.look fun s => ?_)
  refine (inStore_spec _).seq ((releaseInode_spec e).seq ?_)
  exact Triple.assign fun _ h => h.drop

theorem iunlockput_spec (e : ℕ) :
    Triple (Holds a c b (e :: l) k) (iunlockput e) fun _ => Holds a c b l k :=
  (iunlock_spec e).seq (iput_spec e)

theorem updateInode_spec (e : ℕ) (f : Fs.Inode → Fs.Inode) :
    Triple (Holds a c b l k) (updateInode e f) fun _ => Holds a c b l k :=
  Triple.look fun _ => inStore_spec _

/-! ## Directories and path names -/

theorem dirlookup_spec (dp : ℕ) (name : List ℕ) :
    Triple (Holds a c b l k) (dirlookup dp name) fun r =>
      Holds a c b ((r.map Prod.fst).toList ++ l) k := by
  refine Triple.look fun s => Triple.ite (fun _ => Triple.fail) fun _ => ?_
  refine (onStore_spec _).bind fun r => ?_
  rcases r with _ | x
  · exact Triple.pure fun _ h => h
  · exact (iget_spec _ _).bind fun e => Triple.pure fun _ h => h

theorem dirlink_spec (dp : ℕ) (name : List ℕ) (inum : ℕ) :
    Triple (Holds a c b l k) (dirlink dp name inum) fun _ => Holds a c b l k := by
  refine (dirlookup_spec dp name).bind fun r => ?_
  rcases r with _ | x
  · refine Triple.look fun s => (onStore_spec _).bind fun off => ?_
    exact (inStore_spec _).seq (Triple.pure fun _ h => h)
  · exact (iput_spec x.1).seq (Triple.pure fun _ h => h)

theorem isdirempty_spec (dp : ℕ) :
    Triple (Holds a c b l k) (isdirempty dp) fun _ => Holds a c b l k :=
  Triple.look fun _ => (onStore_spec _).bind fun _ => Triple.pure fun _ h => h

theorem namexEnd_spec (par : Bool) (ip : ℕ) :
    Triple (Holds a c b (ip :: l) k) (namexEnd par ip) fun r =>
      Holds a c b ((r.map Prod.fst).toList ++ l) k :=
  Triple.ite (fun _ => (iput_spec ip).seq (Triple.pure fun _ h => h)) fun _ =>
    Triple.pure fun _ h => h

theorem namexLoop_spec (par : Bool) (fuel ip : ℕ) (path : List ℕ) :
    Triple (Holds a c b (ip :: l) k) (namexLoop par fuel ip path) fun r =>
      Holds a c b ((r.map Prod.fst).toList ++ l) k := by
  induction fuel generalizing ip path with
  | zero => exact namexEnd_spec par ip
  | succ fuel ih =>
    unfold namexLoop
    rcases skipelem path with _ | x
    · exact namexEnd_spec par ip
    · refine (ilock_spec ip).seq (Triple.look fun s => ?_)
      refine Triple.ite (fun _ => (iunlockput_spec ip).seq (Triple.pure fun _ h => h)) fun _ => ?_
      refine Triple.ite (fun _ => (iunlock_spec ip).seq (Triple.pure fun _ h => h)) fun _ => ?_
      refine (dirlookup_spec ip x.1).bind fun r => ?_
      rcases r with _ | next
      · exact (iunlockput_spec ip).seq (Triple.pure fun _ h => h)
      · -- the reference to the directory goes, the one to `next` stays
        refine Triple.seq ((iunlockput_spec ip).pre fun _ h => h.swap) (ih next.1 x.2)

/-- **`namex` takes one reference to what it returns.** -/
theorem namex_spec (p : Slot) (path : List ℕ) (par : Bool) :
    Triple (Holds a c b l k) (namex p path par) fun r =>
      Holds a c b ((r.map Prod.fst).toList ++ l) k := by
  refine Triple.ite (fun _ => (iget_spec _ _).bind fun ip => namexLoop_spec _ _ _ _) fun _ => ?_
  refine Triple.read fun s h => ?_
  rcases hc : s.cwd p with _ | e
  · exact Triple.fail
  · have hc' : c p = some e := by rw [← h.cwd, hc]
    exact ((idup_spec hc').pre fun s' hs' => hs' ▸ h).bind fun ip => namexLoop_spec _ _ _ _

theorem namei_spec (p : Slot) (path : List ℕ) :
    Triple (Holds a c b l k) (namei p path) fun r => Holds a c b (r.toList ++ l) k :=
  (namex_spec p path false).bind fun _ => Triple.pure fun _ h => h

theorem nameiparent_spec (p : Slot) (path : List ℕ) :
    Triple (Holds a c b l k) (nameiparent p path) fun r =>
      Holds a c b ((r.map Prod.fst).toList ++ l) k := namex_spec p path true

theorem dirlinkOrPanic_spec (dp : ℕ) (name : List ℕ) (inum : ℕ) (msg : String) :
    Triple (Holds a c b l k) (dirlinkOrPanic dp name inum msg) fun _ => Holds a c b l k :=
  (dirlink_spec dp name inum).bind fun _ =>
    Triple.ite (fun _ => Triple.pure fun _ h => h) fun _ => Triple.fail

theorem createDots_spec (type ip dp : ℕ) :
    Triple (Holds a c b l k) (createDots type ip dp) fun _ => Holds a c b l k := by
  refine Triple.ite (fun _ => ?_) fun _ => Triple.pure fun _ h => h
  refine (updateInode_spec dp _).seq (Triple.look fun s => ?_)
  exact (dirlinkOrPanic_spec _ _ _ _).seq (dirlinkOrPanic_spec _ _ _ _)

theorem createNew_spec (dp : ℕ) (name : List ℕ) (type major minor : ℕ) :
    Triple (Holds a c b (dp :: l) k) (createNew dp name type major minor) fun ip =>
      Holds a c b (ip :: l) k := by
  refine Triple.look fun s => ((onStore_spec _).bind fun inum => iget_spec _ _).bind fun ip => ?_
  refine (ilock_spec ip).seq ((updateInode_spec ip _).seq ((createDots_spec _ _ _).seq ?_))
  refine Triple.look fun s => (dirlinkOrPanic_spec _ _ _ _).seq ?_
  exact Triple.seq ((iunlockput_spec dp).pre fun _ h => h.swap) (Triple.pure fun _ h => h)

/-- **`create` takes one reference to what it returns.** -/
theorem create_spec (p : Slot) (path : List ℕ) (type major minor : ℕ) :
    Triple (Holds a c b l k) (create p path type major minor) fun r =>
      Holds a c b (r.toList ++ l) k := by
  refine (nameiparent_spec p path).bind fun r => ?_
  rcases r with _ | ⟨dp, name⟩
  · exact Triple.pure fun _ h => h
  · refine (ilock_spec dp).seq ((dirlookup_spec dp name).bind fun r => ?_)
    rcases r with _ | ⟨ip, off⟩
    · exact (createNew_spec dp name type major minor).bind fun ip => Triple.pure fun _ h => h
    · refine Triple.seq ((iunlockput_spec dp).pre fun _ h => h.swap) ((ilock_spec ip).seq ?_)
      refine Triple.look fun s => Triple.ite (fun _ => Triple.pure fun _ h => h) fun _ => ?_
      exact (iunlockput_spec ip).seq (Triple.pure fun _ h => h)

end Inodes

end Sysfile

end OsPlayground
