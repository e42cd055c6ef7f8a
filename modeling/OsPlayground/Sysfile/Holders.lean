import OsPlayground.Sysfile.Refs

/-!
# References to files

* `Holds.setCount`, `Holds.release`, `Holds.install`, `Holds.takeOut`, `Holds.fill`: what the
  functions of `file.c` and the system calls do to the tables.
* `fileclose_spec`, `filealloc_spec`, `fdalloc_spec`, `filedup_spec`.
-/

namespace OsPlayground

namespace Sysfile

open Lib

section Tables

variable {a : Slot → Fin NOFILE → Prop} {c : Slot → Option ℕ} {b : Option (Fin NFILE)}
  {l l' : List ℕ} {k k' : List (Fin NFILE)} {s s' : Sys} {e : ℕ} {p : Slot} {fd : Fin NOFILE} {f : Fin NFILE}

@[simp] theorem setFiles_files (t : Files) : (s.setFiles t).files = t := rfl
@[simp] theorem setFiles_icache (t : Files) : (s.setFiles t).icache = s.icache := rfl
@[simp] theorem setFiles_cwd (t : Files) : (s.setFiles t).cwd = s.cwd := rfl
@[simp] theorem setFiles_pipe (t : Files) : (s.setFiles t).pipe = s.pipe := rfl

/-- What a file is connected to, without its count. -/
structure SameEnds (r r' : File) : Prop where
  type : r'.type = r.type
  ip : r'.ip = r.ip
  pipe : r'.pipe = r.pipe
  writable : r'.writable = r.writable

theorem SameEnds.isEnd {r r' : File} (h : SameEnds r r') {page : ℕ} {w : Bool} :
    IsEnd page w r' ↔ IsEnd page w r := by
  unfold IsEnd
  rw [h.type, h.pipe, h.writable]

namespace Holds

/-- The count of a file changes, and the number of references held with it. -/
theorem setCount (h : Holds a c b l k s) (n : ℕ) (hpos : n ≠ 0)
    (hk : ∀ g, g ≠ f → k'.count g = k.count g)
    (hn : n + k.count f = (s.files.file f).ref + k'.count f) :
    Holds a c b l k' (s.setFiles (s.files.setFile f fun r => { r with ref := n })) := by
  have hsame : ∀ g, SameEnds (s.files.file g)
      ((s.files.setFile f fun r => { r with ref := n }).file g) := by
    intro g
    rw [Files.setFile_file]
    split_ifs with hg
    · rw [hg]
      exact ⟨rfl, rfl, rfl, rfl⟩
    · exact ⟨rfl, rfl, rfl, rfl⟩
  refine { h with
    files := fun g => ?_
    free := fun g hg => ?_
    typed := fun g hg => h.typed g ((hsame g).type ▸ hg)
    blank := fun g hg => ⟨(hsame g).type.trans (h.blank g hg).1, ?_⟩
    inodes := fun e => ?_
    pipes := fun page w => ?_
    single := fun page w g g' hg hg' => h.single page w g g' ((hsame g).isEnd.mp hg)
      ((hsame g').isEnd.mp hg') }
  · have hc := h.files g
    rw [setFiles_files, Files.setFile_file, Files.setFile_holders]
    split_ifs with hgf
    · subst hgf
      dsimp only
      omega
    · rw [hk g hgf, hc]
  · rw [setFiles_files] at hg ⊢
    rw [(hsame g).type]
    rw [Files.setFile_file] at hg
    split_ifs at hg with hgf
    · exact absurd hg hpos
    · exact h.free g hg
  · rw [setFiles_files, Files.setFile_file]
    split_ifs with hgf
    · exact hpos
    · exact (h.blank g hg).2
  · rw [setFiles_files, inodeFiles_congr (fun g => (hsame g).type) fun g => (hsame g).ip]
    exact h.inodes e
  · rw [setFiles_pipe, h.pipes page w]
    exact exists_congr fun g => (hsame g).isEnd.symm

theorem incRef (h : Holds a c b l k s) :
    Holds a c b l (f :: k) (s.setFiles (s.files.setFile f fun r => { r with ref := r.ref + 1 })) := by
  refine h.setCount ((s.files.file f).ref + 1) (by omega)
    (fun g hg => List.count_cons_of_ne (Ne.symm hg)) ?_
  rw [List.count_cons_self]
  omega

theorem decRef (h : Holds a c b l (f :: k) s) (hmore : 1 < (s.files.file f).ref) :
    Holds a c b l k (s.setFiles (s.files.setFile f fun r => { r with ref := r.ref - 1 })) := by
  refine h.setCount ((s.files.file f).ref - 1) (by omega)
    (fun g hg => (List.count_cons_of_ne (Ne.symm hg)).symm) ?_
  rw [List.count_cons_self]
  omega

/-- The file after its last reference. -/
def closed (r : File) : File := { r with ref := 0, type := .none }

/-- A file is free after its last reference, once what it was connected to is given up. -/
theorem release (h : Holds a c none l (f :: k) s) (hone : (s.files.file f).ref = 1)
    (hl : ∀ e, l'.count e =
      l.count e + if (s.files.file f).type = .inode ∧ (s.files.file f).ip = e then 1 else 0)
    (hfs : s'.files = s.files.setFile f closed) (hic : s'.icache = s.icache) (hcwd : s'.cwd = s.cwd)
    (hpipe : ∀ page w, (s'.pipe page).isOpen w = true ↔
      (s.pipe page).isOpen w = true ∧ ¬ IsEnd page w (s.files.file f)) :
    Holds a c none l' k s' := by
  have hf := h.files f
  rw [List.count_cons_self] at hf
  have hnot : ∀ page w, ¬ IsEnd page w (closed (s.files.file f)) := fun page w hp => by
    cases hp.1
  constructor
  · intro g
    rw [hfs, Files.setFile_file, Files.setFile_holders]
    split_ifs with hg
    · rw [hg]
      change 0 = _
      omega
    · rw [h.files g, List.count_cons_of_ne (Ne.symm hg)]
  · intro g hg
    rw [hfs, Files.setFile_file] at hg ⊢
    split_ifs at hg ⊢ with hgf
    · rfl
    · exact h.free g hg
  · intro g hg
    rw [hfs, Files.setFile_file] at hg
    rw [hfs, Files.setFile_holders]
    split_ifs at hg with hgf
    · rw [hgf]
      left
      omega
    · exact h.typed g hg
  · intro g hg
    cases hg
  · rw [hcwd, h.cwd]
  · intro e
    have hch := setFile_inodeFiles (t := s.files) (f := f) closed e
    have hi := h.inodes e
    have hle := hl e
    rw [hic, hfs]
    simp only [closed, reduceCtorEq, false_and, if_false] at hch ⊢
    omega
  · rw [hic]
    exact h.room
  · rw [hic]
    exact h.distinct
  · intro page w
    rw [hpipe, h.pipes, hfs]
    constructor
    · rintro ⟨⟨g, hg⟩, hno⟩
      have hgf : g ≠ f := by
        rintro rfl
        exact hno hg
      refine ⟨g, ?_⟩
      rw [Files.setFile_file, if_neg hgf]
      exact hg
    · rintro ⟨g, hg⟩
      rw [Files.setFile_file] at hg
      split_ifs at hg with hgf
      · exact absurd hg (hnot page w)
      · exact ⟨⟨g, hg⟩, fun hend => hgf (h.single page w g f hg hend)⟩
  · intro page w g g' hg hg'
    rw [hfs, Files.setFile_file] at hg hg'
    split_ifs at hg hg' with h₁ h₂ h₂
    · exact absurd hg (hnot page w)
    · exact absurd hg (hnot page w)
    · exact absurd hg' (hnot page w)
    · exact h.single page w g g' hg hg'
  · intro q fd hq
    rw [hfs]
    exact h.idle q fd hq

/-- A reference that was held goes into a free descriptor. -/
theorem install (h : Holds a c none l (f :: k) s) (hp : a p fd) (hfd : s.files.ofile p fd = none)
    (hb : ∀ g, b = some g ↔ g = f ∧ (s.files.file f).type = .none) :
    Holds a c b l k (s.setFiles (s.files.setOfile p fd (some f))) := by
  have hh := fun g => Files.setOfile_holders (t := s.files) (p := p) (d := fd) (some f) g
  simp only [hfd, reduceCtorEq, if_false, Option.some.injEq, add_zero] at hh
  refine { h with
    files := fun g => ?_
    typed := fun g hg => ?_
    blank := fun g hg => ?_
    idle := fun q fd' hq => ?_ }
  · have hc := h.files g
    rw [List.count_cons] at hc
    simp only [beq_iff_eq] at hc
    rw [setFiles_files, Files.setOfile_file, hh, hc]
    omega
  · rw [setFiles_files, Files.setOfile_file] at hg
    rw [setFiles_files, hh]
    by_cases hgf : f = g
    · subst hgf
      exact .inr ((hb f).mpr ⟨rfl, hg⟩)
    · rw [if_neg hgf, add_zero]
      rcases h.typed g hg with hz | hz
      · exact .inl hz
      · cases hz
  · obtain ⟨rfl, hz⟩ := (hb g).mp hg
    have hc := h.files g
    rw [List.count_cons_self] at hc
    refine ⟨hz, ?_⟩
    rw [setFiles_files, Files.setOfile_file]
    omega
  · rw [setFiles_files, Files.setOfile_ofile, if_neg]
    · exact h.idle q fd' hq
    · rintro ⟨rfl, rfl⟩
      exact hq hp

/-- The reference of a descriptor is taken out. -/
theorem takeOut (h : Holds a c b l k s) (hfd : s.files.ofile p fd = some f) :
    Holds (fun q d => a q d ∧ ¬ (q = p ∧ d = fd)) c b l (f :: k) (s.setFiles (s.files.setOfile p fd none)) := by
  have hh := fun g => Files.setOfile_holders (t := s.files) (p := p) (d := fd) none g
  simp only [hfd, reduceCtorEq, if_false, Option.some.injEq, add_zero] at hh
  refine { h with
    files := fun g => ?_
    typed := fun g hg => ?_
    idle := fun q fd' hq => ?_ }
  · have hc := h.files g
    rw [setFiles_files, Files.setOfile_file, List.count_cons, hc, ← hh]
    simp only [beq_iff_eq]
    omega
  · rw [setFiles_files]
    rcases h.typed g hg with hz | hz
    · left
      have := hh g
      omega
    · exact .inr hz
  · rw [setFiles_files, Files.setOfile_ofile]
    split_ifs with hx
    · rfl
    · exact h.idle q fd' fun ha => hq ⟨ha, hx⟩

/-- A file without a type is filled in, as no end of a pipe. -/
theorem fill (h : Holds a c (some f) l k s) {g : File → File} (href : ∀ r, (g r).ref = r.ref)
    (htype : ∀ r, (g r).type ≠ .none ∧ (g r).type ≠ .pipe)
    (hl : ∀ e, l.count e = l'.count e +
      if (g (s.files.file f)).type = .inode ∧ (g (s.files.file f)).ip = e then 1 else 0) :
    Holds a c none l' k (s.setFiles (s.files.setFile f g)) := by
  obtain ⟨hnone, hpos⟩ := h.blank f rfl
  have hold : ∀ page w, ¬ IsEnd page w (s.files.file f) := fun page w hp => by
    rw [IsEnd, hnone] at hp
    cases hp.1
  have hnew : ∀ page w, ¬ IsEnd page w (g (s.files.file f)) := fun page w hp => (htype _).2 hp.1
  refine { h with
    files := fun g' => ?_
    free := fun g' hg => ?_
    typed := fun g' hg => ?_
    blank := fun g' hg => by cases hg
    inodes := fun e => ?_
    pipes := fun page w => ?_
    single := fun page w x y hx hy => ?_ }
  · rw [setFiles_files, Files.setFile_file, Files.setFile_holders, ← h.files g']
    split_ifs with hgf
    · rw [hgf, href]
    · rfl
  · rw [setFiles_files, Files.setFile_file] at hg ⊢
    split_ifs at hg ⊢ with hgf
    · exact absurd ((href _).symm.trans hg) hpos
    · exact h.free g' hg
  · rw [setFiles_files, Files.setFile_file] at hg
    split_ifs at hg with hgf
    · exact absurd hg (htype _).1
    · rcases h.typed g' hg with hz | hz
      · exact .inl hz
      · exact absurd (Option.some.inj hz).symm hgf
  · have hch := setFile_inodeFiles (t := s.files) (f := f) g e
    have hi := h.inodes e
    have hle := hl e
    simp only [hnone, reduceCtorEq, false_and, if_false, add_zero] at hch
    rw [setFiles_files, hch, setFiles_icache, hi, hle]
    omega
  · rw [setFiles_pipe, h.pipes page w]
    refine exists_congr fun x => ?_
    rw [setFiles_files, Files.setFile_file]
    split_ifs with hx
    · rw [hx]
      exact iff_of_false (hold page w) (hnew page w)
    · rfl
  · rw [setFiles_files, Files.setFile_file] at hx hy
    split_ifs at hx hy with h₁ h₂ h₂
    · exact absurd hx (hnew page w)
    · exact absurd hx (hnew page w)
    · exact absurd hy (hnew page w)
    · exact h.single page w x y hx hy

end Holds

end Tables

/-! ## The functions of `file.c` -/

section Functions

variable {a : Slot → Fin NOFILE → Prop} {c : Slot → Option ℕ} {b : Option (Fin NFILE)}
  {l : List ℕ} {k u : List (Fin NFILE)} {s : Sys} {p : Slot} {fd : Fin NOFILE} {f : Fin NFILE}
  {q : ℕ → Ends} {α : Type} {P : Sys → Prop} {R : α → Sys → Prop}

theorem onFiles_spec {m : Files → Except String Files} {Q : Sys → Prop}
    (h : ∀ s t, P s → m s.files = .ok t → Q (s.setFiles t)) :
    Triple P (onFiles m) fun _ => Q := by
  intro s x s' hs hm
  unfold onFiles at hm
  split at hm
  · rename_i t ht
    obtain ⟨-, rfl⟩ := Prod.mk.inj (Except.ok.inj hm)
    exact h s t hs ht
  · cases hm

theorem fileclose_cases {t t' : Files} (h : OsPlayground.fileclose f t = .ok t') :
    1 < (t.file f).ref ∧ t' = t.setFile f (fun r => { r with ref := r.ref - 1 }) ∨
      (t.file f).ref = 1 ∧ t' = t.setFile f Holds.closed := by
  unfold OsPlayground.fileclose at h
  dsimp only at h
  rw [Files.setFile_file, if_pos rfl] at h
  split_ifs at h with h₁ h₂
  · obtain rfl := Except.ok.inj h
    dsimp only at h₂
    exact .inl ⟨by omega, rfl⟩
  · obtain rfl := Except.ok.inj h
    dsimp only at h₂
    refine .inr ⟨by omega, ?_⟩
    simp [Files.setFile, Holds.closed]

theorem filedup_eq {t t' : Files} (h : filedup f t = .ok t') :
    t' = t.setFile f fun r => { r with ref := r.ref + 1 } := by
  unfold filedup at h
  split_ifs at h
  exact (Except.ok.inj h).symm

theorem filealloc_some {t t' : Files} (h : OsPlayground.filealloc t = some (f, t')) :
    (t.file f).ref = 0 ∧ t' = t.setFile f fun r => { r with ref := r.ref + 1 } := by
  obtain ⟨g, hg, he⟩ := Option.map_eq_some_iff.mp h
  obtain ⟨rfl, rfl⟩ := Prod.mk.inj he
  have hzero : (t.file g).ref = 0 := by simpa using List.find?_some hg
  exact ⟨hzero, by simp only [Files.setFile, hzero]⟩

theorem pipeclose_isOpen (page page' : ℕ) (v w : Bool) (s : Sys) :
    ((s.setPipe page fun r =>
      if v then { r with writeopen := false } else { r with readopen := false }).pipe page').isOpen w =
      ((s.pipe page').isOpen w && !decide (page = page' ∧ v = w)) := by
  rw [setPipe_pipe]
  by_cases hp : page' = page
  · subst hp
    cases v <;> cases w <;> simp [Ends.isOpen]
  · simp [hp, Ne.symm hp]

theorem not_isEnd {r : File} {page : ℕ} {w : Bool} (h : r.type ≠ .pipe) : ¬ IsEnd page w r :=
  fun hend => h hend.1

theorem count_ip {r : File} (h : r.type = .inode) (e : ℕ) :
    (r.ip :: l).count e = l.count e + if r.type = .inode ∧ r.ip = e then 1 else 0 := by
  rw [List.count_cons]
  simp [h]

/-- **`fileclose` drops one reference**, and with the last one to a file those it has. -/
theorem fileclose_spec (f : Fin NFILE) :
    Triple (Holds a c none l (f :: k)) (fileclose f) fun _ => Holds a c none l k := by
  refine Triple.read fun s h => ?_
  by_cases hmore : 1 < (s.files.file f).ref
  · rw [if_pos hmore]
    refine Triple.seq (onFiles_spec (Q := Holds a c none l k) fun s' t hs' ht => ?_)
      (Triple.pure fun _ h => h)
    rw [hs'] at ht ⊢
    rcases fileclose_cases ht with ⟨-, rfl⟩ | ⟨hone, -⟩
    · exact h.decRef hmore
    · omega
  · rw [if_neg hmore]
    refine Triple.seq (onFiles_spec (Q := fun s' => s' = s.setFiles (s.files.setFile f Holds.closed) ∧
      (s.files.file f).ref = 1) fun s' t hs' ht => ?_) ?_
    · rw [hs'] at ht ⊢
      rcases fileclose_cases ht with ⟨hmore', -⟩ | ⟨hone, rfl⟩
      · exact absurd hmore' hmore
      · exact ⟨rfl, hone⟩
    · unfold closeLast
      cases htype : (s.files.file f).type with
      | none | memo =>
        refine Triple.pure fun s' hs' => ?_
        obtain ⟨rfl, hone⟩ := hs'
        refine h.release hone (fun e => ?_) rfl rfl rfl fun page w => ?_
        · rw [htype, if_neg (by simp), add_zero]
        · exact (and_iff_left (not_isEnd (by rw [htype]; simp))).symm
      | inode =>
        refine (iput_spec _).pre fun s' hs' => ?_
        obtain ⟨rfl, hone⟩ := hs'
        refine h.release hone (fun e => ?_) rfl rfl rfl fun page w => ?_
        · exact count_ip htype e
        · exact (and_iff_left (not_isEnd (by rw [htype]; simp))).symm
      | pipe =>
        refine Triple.assign fun s' hs' => ?_
        obtain ⟨rfl, hone⟩ := hs'
        refine h.release hone (fun e => ?_) rfl rfl rfl fun page w => ?_
        · rw [htype, if_neg (by simp), add_zero]
        · rw [pipeclose_isOpen]
          simp only [setFiles_pipe, IsEnd, htype, true_and, Bool.and_eq_true, Bool.not_eq_true',
            decide_eq_false_iff_not]

/-- The files in `u` have no type. -/
def Blank (u : List (Fin NFILE)) (s : Sys) : Prop := ∀ f ∈ u, (s.files.file f).type = .none

/-- **`filealloc` takes a new reference to a file without a type.** -/
theorem filealloc_bind {m : Option (Fin NFILE) → SysM α}
    (hnone : Triple (fun s => Holds a c b l k s ∧ Blank u s ∧ s.pipe = q) (m none) R)
    (hsome : ∀ f, f ∉ k → Triple (fun s => Holds a c b l (f :: k) s ∧ Blank (f :: u) s ∧ s.pipe = q)
      (m (some f)) R) :
    Triple (fun s => Holds a c b l k s ∧ Blank u s ∧ s.pipe = q) (filealloc >>= m) R := by
  refine Triple.bind (Q := fun r s => (r = none → Holds a c b l k s ∧ Blank u s ∧ s.pipe = q) ∧
    ∀ f, r = some f → f ∉ k ∧ Holds a c b l (f :: k) s ∧ Blank (f :: u) s ∧ s.pipe = q)
    (Triple.read fun s h => ?_) fun r => ?_
  · obtain ⟨h, hblank, hpipe⟩ := h
    rcases ha : OsPlayground.filealloc s.files with _ | ⟨f, t⟩
    · refine Triple.pure fun s' hs' => ⟨fun _ => hs' ▸ ⟨h, hblank, hpipe⟩, fun f hf => ?_⟩
      cases hf
    · obtain ⟨hzero, rfl⟩ := filealloc_some ha
      refine Triple.seq (Triple.assign (R := fun _ s' => s' = s.setFiles
        (s.files.setFile f fun r => { r with ref := r.ref + 1 })) fun s' hs' => hs' ▸ rfl)
        (Triple.pure fun s' hs' => ⟨nofun, ?_⟩)
      rintro f' ⟨⟩
      rw [hs']
      refine ⟨fun (hk : f ∈ k) => ?_, h.incRef, fun g hg => ?_, hpipe⟩
      · have hc := h.files f
        rw [hzero] at hc
        have := List.count_pos_iff.mpr hk
        omega
      · rw [setFiles_files, Files.setFile_file]
        split_ifs with hgf
        · exact h.free f hzero
        · exact hblank g (List.mem_of_ne_of_mem hgf hg)
  · rcases r with _ | f
    · exact hnone.pre fun s' h => h.1 rfl
    · intro s x s' h hm
      exact hsome f (h.2 f rfl).1 s x s' (h.2 f rfl).2 hm

end Functions

end Sysfile

end OsPlayground
