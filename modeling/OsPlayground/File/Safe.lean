import Mathlib.Algebra.Order.BigOperators.Group.Finset
import Mathlib.Data.Fintype.Prod
import OsPlayground.File.Model

/-!
# Open files can be used safely

* `Files.Counted t l`: every file is counted once for each descriptor and each reference in `l`,
  the references that a system call holds while it runs.
* `Files.Inv`: between system calls nothing is held, and an open file has a type.
* `filesInv_step`: what a system call keeps; only `fileread` on a memo can panic.
* **`files_safe_iff`**: no call of a run panics if and only if none reads a memo.
-/

namespace OsPlayground

open Lib

/-- An open file has a type, and is readable if it is a memo. -/
structure File.Typed (r : File) : Prop where
  type : r.type ≠ .none
  readable : r.type = .memo → r.readable = true

/-! ## Counting -/

namespace Files

/-- The number of descriptors of the file `f`. -/
def holders (t : Files) (f : Fin NFILE) : ℕ :=
  ∑ x : Slot × Fin NOFILE, if t.ofile x.1 x.2 = some f then 1 else 0

/-- Every file is counted for its descriptors and for the references in `l`. -/
def Counted (t : Files) (l : List (Fin NFILE)) : Prop :=
  ∀ f, (t.file f).ref = t.holders f + l.count f

/-- The invariant of the tables while a system call holds the references in `l`. -/
structure Inv (t : Files) (l : List (Fin NFILE)) : Prop where
  counted : t.Counted l
  typed : ∀ p fd f, t.ofile p fd = some f → (t.file f).Typed
  running : t.panicked = none

variable {t t' : Files} {p : Slot} {fd : Fin NOFILE} {f g : Fin NFILE} {l : List (Fin NFILE)}

@[simp] theorem setFile_ofile (h : File → File) : (t.setFile f h).ofile = t.ofile := rfl
@[simp] theorem setFile_panicked (h : File → File) : (t.setFile f h).panicked = t.panicked := rfl
@[simp] theorem setOfile_file (o : Option (Fin NFILE)) : (t.setOfile p fd o).file = t.file := rfl
@[simp] theorem setOfile_panicked (o : Option (Fin NFILE)) :
    (t.setOfile p fd o).panicked = t.panicked := rfl
@[simp] theorem panic_file (s : String) : (t.panic s).file = t.file := rfl
@[simp] theorem panic_ofile (s : String) : (t.panic s).ofile = t.ofile := rfl

theorem setFile_file (h : File → File) :
    (t.setFile f h).file g = if g = f then h (t.file f) else t.file g := by
  by_cases hg : g = f
  · subst hg
    simp [setFile]
  · rw [if_neg hg]
    exact Function.update_of_ne hg _ _

theorem setOfile_ofile (o : Option (Fin NFILE)) (q : Slot) (fd' : Fin NOFILE) :
    (t.setOfile p fd o).ofile q fd' = if q = p ∧ fd' = fd then o else t.ofile q fd' := by
  by_cases hq : q = p
  · subst hq
    by_cases hfd : fd' = fd
    · subst hfd
      simp [setOfile]
    · simp [setOfile, hfd]
  · simp [setOfile, hq]

@[simp] theorem setFile_holders (h : File → File) : (t.setFile f h).holders = t.holders := rfl

theorem setOfile_holders {d : Fin NOFILE} (o : Option (Fin NFILE)) (g : Fin NFILE) :
    (t.setOfile p d o).holders g + (if t.ofile p d = some g then 1 else 0) =
      t.holders g + if o = some g then 1 else 0 := by
  have h := sum_change (Finset.mem_univ (p, d))
    (f := fun x : Slot × Fin NOFILE => if t.ofile x.1 x.2 = some g then 1 else 0)
    (g := fun x : Slot × Fin NOFILE => if (t.setOfile p d o).ofile x.1 x.2 = some g then 1 else 0)
    fun x _ hx => by
      have hne : ¬ (x.1 = p ∧ x.2 = d) := fun h => hx (Prod.ext h.1 h.2)
      rw [setOfile_ofile, if_neg hne]
  simp only [setOfile_ofile, and_self, if_true] at h
  simp only [holders, setOfile_ofile]
  exact h

theorem holders_pos (h : t.ofile p fd = some f) : 0 < t.holders f := by
  have hle := Finset.single_le_sum
    (f := fun x : Slot × Fin NOFILE => if t.ofile x.1 x.2 = some f then 1 else 0)
    (fun _ _ => Nat.zero_le _) (Finset.mem_univ (p, fd))
  simp only [h, if_true] at hle
  exact hle

theorem Inv.perm {k : List (Fin NFILE)} (h : t.Inv l) (hk : ∀ f, k.count f = l.count f) :
    t.Inv k :=
  ⟨fun f => by rw [hk, h.counted], h.typed, h.running⟩

theorem Inv.setFile {h : File → File} (hi : t.Inv l) (href : ∀ r, (h r).ref = r.ref)
    (htype : ∀ r, r.Typed → (h r).Typed) : (t.setFile f h).Inv l := by
  refine ⟨fun g => ?_, fun p fd g hg => ?_, hi.running⟩
  · rw [setFile_file, setFile_holders, ← hi.counted g]
    by_cases hg : g = f
    · rw [if_pos hg, href, hg]
    · rw [if_neg hg]
  · have hg := hi.typed p fd g hg
    rw [setFile_file]
    by_cases hgf : g = f
    · rw [if_pos hgf]
      exact htype _ (hgf ▸ hg)
    · rwa [if_neg hgf]

theorem Inv.install (h : t.Inv (f :: l)) (hfd : t.ofile p fd = none) (hf : (t.file f).Typed) :
    (t.setOfile p fd (some f)).Inv l := by
  refine ⟨fun g => ?_, fun q fd' g hg => ?_, h.running⟩
  · have hh := setOfile_holders (t := t) (p := p) (d := fd) (some f) g
    have hc := h.counted g
    rw [hfd, List.count_cons] at *
    simp only [reduceCtorEq, if_false, Option.some.injEq, add_zero, beq_iff_eq] at hh hc
    rw [setOfile_file, hc, hh]
    omega
  · rw [setOfile_ofile] at hg
    split_ifs at hg with hq
    · obtain rfl := Option.some.inj hg
      exact hf
    · exact h.typed q fd' g hg

theorem Inv.takeOut (h : t.Inv l) (hfd : t.ofile p fd = some f) :
    (t.setOfile p fd none).Inv (f :: l) := by
  refine ⟨fun g => ?_, fun q fd' g hg => ?_, h.running⟩
  · have hh := setOfile_holders (t := t) (p := p) (d := fd) none g
    have hc := h.counted g
    rw [hfd] at hh
    simp only [reduceCtorEq, if_false, Option.some.injEq, add_zero] at hh
    rw [setOfile_file, List.count_cons, hc]
    simp only [beq_iff_eq]
    omega
  · rw [setOfile_ofile] at hg
    split_ifs at hg
    exact h.typed q fd' g hg

end Files

/-! ## The functions of `file.c` -/

section Functions

open Files

variable {t t' : Files} {p np : Slot} {fd : Fin NOFILE} {f : Fin NFILE} {l : List (Fin NFILE)}

theorem filealloc_inv (h : t.Inv l) (ha : filealloc t = some (f, t')) : t'.Inv (f :: l) := by
  obtain ⟨f', hf, he⟩ := Option.map_eq_some_iff.mp ha
  obtain ⟨rfl, rfl⟩ := Prod.mk.inj he
  have hzero : (t.file f').ref = 0 := by simpa using List.find?_some hf
  refine ⟨fun g => ?_, fun q fd g hg => ?_, h.running⟩
  · have hc := h.counted g
    rw [setFile_file, setFile_holders, List.count_cons]
    by_cases hg : g = f'
    · subst hg
      simp only [if_true, beq_self_eq_true]
      omega
    · have hg' : (f' == g) = false := by simpa using fun h => hg h.symm
      rw [if_neg hg, hc, hg']
      rfl
  · have hg := h.typed q fd g hg
    rw [setFile_file]
    split_ifs with hgf
    · exact ⟨(hgf ▸ hg).type, (hgf ▸ hg).readable⟩
    · exact hg

theorem fdallocFile_some (h : fdallocFile p f t = some t') :
    ∃ fd, t.ofile p fd = none ∧ t' = t.setOfile p fd (some f) := by
  obtain ⟨fd, hfd, rfl⟩ := Option.map_eq_some_iff.mp h
  exact ⟨fd, by simpa using List.find?_some hfd, rfl⟩

/-- `fileclose` gives back a reference, and does not panic. -/
theorem fileclose_inv (h : t.Inv (f :: l)) : ∃ t', fileclose f t = .ok t' ∧ t'.Inv l := by
  have hc := h.counted
  have hf := hc f
  rw [List.count_cons_self] at hf
  have hcount : ∀ g, g ≠ f → (t.file g).ref = t.holders g + l.count g := by
    intro g hg
    rw [hc g, List.count_cons_of_ne (Ne.symm hg)]
  unfold fileclose
  rw [if_neg (by omega)]
  dsimp only
  split_ifs with hpos
  · refine ⟨_, rfl, fun g => ?_, fun q fd g hg => ?_, h.running⟩
    · rw [setFile_file]
      split_ifs with hg
      · rw [hg]
        change (t.file f).ref - 1 = t.holders f + l.count f
        omega
      · exact hcount g hg
    · have hg := h.typed q fd g hg
      rw [setFile_file]
      split_ifs with hgf
      · exact ⟨(hgf ▸ hg).type, (hgf ▸ hg).readable⟩
      · exact hg
  · -- the last reference: no descriptor is left
    have hlast : (t.file f).ref - 1 = 0 := by
      rw [setFile_file, if_pos rfl] at hpos
      exact Nat.eq_zero_of_not_pos hpos
    refine ⟨_, rfl, fun g => ?_, fun q fd g hg => ?_, h.running⟩
    · rw [setFile_file]
      split_ifs with hg
      · rw [hg]
        change 0 = t.holders f + l.count f
        omega
      · rw [setFile_file, if_neg hg]
        exact hcount g hg
    · by_cases hgf : g = f
      · have := holders_pos (t := t) (show t.ofile q fd = some f by rw [← hgf]; exact hg)
        omega
      · rw [setFile_file, if_neg hgf, setFile_file, if_neg hgf]
        exact h.typed q fd g hg

theorem closeOrPanic_inv (h : t.Inv (f :: l)) : (closeOrPanic f t).Inv l := by
  obtain ⟨t', ht', hi⟩ := fileclose_inv h
  rw [closeOrPanic, ht']
  exact hi

/-- `filedup` of an open file. -/
theorem filedup_inv (h : t.Inv l) (hfd : t.ofile p fd = some f) :
    ∃ t', filedup f t = .ok t' ∧ t'.Inv (f :: l) ∧ t'.ofile = t.ofile ∧
      ∀ o q fd', filedup f (t.setOfile q fd' o) = .ok (t'.setOfile q fd' o) := by
  have hpos : ¬ (t.file f).ref < 1 := by
    have := holders_pos hfd
    have := h.counted f
    omega
  refine ⟨t.setFile f fun r => { r with ref := r.ref + 1 }, if_neg hpos,
    ⟨fun g => ?_, fun q fd' g hg => ?_, h.running⟩, rfl, fun o q fd' => if_neg hpos⟩
  · have hc := h.counted g
    rw [setFile_file, setFile_holders, List.count_cons]
    by_cases hg : g = f
    · subst hg
      simp only [if_true, beq_self_eq_true]
      omega
    · have hg' : (f == g) = false := by simpa using fun h => hg h.symm
      rw [if_neg hg, hc, hg']
      rfl
  · have hg := h.typed q fd' g hg
    rw [setFile_file]
    split_ifs with hgf
    · exact ⟨(hgf ▸ hg).type, (hgf ▸ hg).readable⟩
    · exact hg

theorem fileclose_setOfile (o : Option (Fin NFILE)) :
    fileclose f (t.setOfile p fd o) = (fileclose f t).map fun t => t.setOfile p fd o := by
  unfold fileclose
  rw [setOfile_file]
  split_ifs
  · rfl
  · dsimp only
    split_ifs <;> simp_all [setFile, setOfile, Except.map]

end Functions

/-! ## System calls -/

section Calls

open Files

variable {t t' : Files} {p np : Slot} {fd : Fin NOFILE} {f : Fin NFILE}

theorem openFile_inv {g : File → File} (h : t.Inv []) (href : ∀ r, (g r).ref = r.ref)
    (htype : ∀ r, (g r).Typed) : (openFile p g t).Inv [] := by
  unfold openFile
  rcases ha : filealloc t with _ | ⟨f, t₁⟩
  · exact h
  · have h₁ := filealloc_inv h ha
    dsimp only
    rcases hfd : fdallocFile p f t₁ with _ | t₂
    · exact closeOrPanic_inv h₁
    · obtain ⟨fd, hnone, rfl⟩ := fdallocFile_some hfd
      have h₂ : (t₁.setFile f g).Inv [f] := h₁.setFile href fun r _ => htype r
      refine h₂.install hnone ?_
      rw [setFile_file, if_pos rfl]
      exact htype _

theorem pipealloc_inv (page : Option ℕ) (h : t.Inv []) :
    (∀ t', pipealloc page t = (t', none) → t'.Inv []) ∧
      ∀ t' rf wf, pipealloc page t = (t', some (rf, wf)) →
        t'.Inv [rf, wf] ∧ (t'.file rf).Typed ∧ (t'.file wf).Typed := by
  unfold pipealloc
  rcases ha : filealloc t with _ | ⟨f0, t₁⟩
  · refine ⟨fun t' ht => ?_, fun t' rf wf ht => by cases ht⟩
    obtain ⟨rfl, -⟩ := Prod.mk.inj ht
    exact h
  · have h₁ := filealloc_inv h ha
    dsimp only
    rcases ha' : filealloc t₁ with _ | ⟨f1, t₂⟩
    · refine ⟨fun t' ht => ?_, fun t' rf wf ht => by cases ht⟩
      obtain ⟨rfl, -⟩ := Prod.mk.inj ht
      exact closeOrPanic_inv h₁
    · have h₂ := filealloc_inv h₁ ha'
      have h₂' : t₂.Inv [f0, f1] := h₂.perm fun g => List.Perm.count_eq (List.Perm.swap _ _ _) g
      cases page with
      | none =>
        refine ⟨fun t' ht => ?_, fun t' rf wf ht => by cases ht⟩
        obtain ⟨rfl, -⟩ := Prod.mk.inj ht
        exact closeOrPanic_inv (closeOrPanic_inv h₂')
      | some page =>
        refine ⟨fun t' ht => ?_, fun t' rf wf ht => ?_⟩
        · cases ht
        obtain ⟨rfl, hfs⟩ := Prod.mk.inj ht
        obtain ⟨rfl, rfl⟩ := Prod.mk.inj (Option.some.inj hfs)
        have htyped : ∀ w r, (pipeEnd page w r).Typed := fun w r =>
          ⟨by simp [pipeEnd], by simp [pipeEnd]⟩
        have h₃ : (t₂.setFile f0 (pipeEnd page false)).Inv [f0, f1] :=
          h₂'.setFile (fun _ => rfl) fun r _ => htyped _ r
        refine ⟨h₃.setFile (fun _ => rfl) fun r _ => htyped _ r, ?_, ?_⟩
        · rw [setFile_file]
          split_ifs
          · exact htyped _ _
          · rw [setFile_file, if_pos rfl]
            exact htyped _ _
        · rw [setFile_file, if_pos rfl]
          exact htyped _ _

theorem sysPipe_inv {page : Option ℕ} (h : t.Inv []) : (sysPipe p page t).Inv [] := by
  obtain ⟨hfail, hok⟩ := pipealloc_inv page h
  unfold sysPipe
  rcases hp : pipealloc page t with ⟨t₁, _ | ⟨rf, wf⟩⟩
  · exact hfail t₁ hp
  · obtain ⟨h₁, hrf, hwf⟩ := hok t₁ rf wf hp
    dsimp only
    rcases hfind : (List.finRange NOFILE).find? fun fd => t₁.ofile p fd = none with _ | fd0
    · exact closeOrPanic_inv (closeOrPanic_inv h₁)
    · have hnone : t₁.ofile p fd0 = none := by simpa using List.find?_some hfind
      have h₂ := h₁.install hnone hrf
      dsimp only
      rcases hfd : fdallocFile p wf (t₁.setOfile p fd0 (some rf)) with _ | t₂
      · have hset : (t₁.setOfile p fd0 (some rf)).ofile p fd0 = some rf := by
          rw [setOfile_ofile, if_pos ⟨rfl, rfl⟩]
        exact closeOrPanic_inv (closeOrPanic_inv (h₂.takeOut hset))
      · obtain ⟨fd1, hnone₁, rfl⟩ := fdallocFile_some hfd
        exact h₂.install hnone₁ hwf

theorem sysDup_inv (h : t.Inv []) : (sysDup p fd t).Inv [] := by
  unfold sysDup
  rcases hf : t.ofile p fd with _ | f
  · exact h
  · dsimp only
    rcases hfd : fdallocFile p f t with _ | t₁
    · exact h
    · obtain ⟨fd', hnone, rfl⟩ := fdallocFile_some hfd
      obtain ⟨t₂, hdup, h₂, hofile, hcomm⟩ := filedup_inv h hf
      dsimp only
      rw [hcomm (some f) p fd']
      rw [← hofile] at hnone
      have hf₂ : t₂.ofile p fd = some f := by rw [hofile, hf]
      exact h₂.install hnone (h₂.typed p fd f hf₂)

theorem forkFiles_inv {fds : List (Fin NOFILE)} (h : t.Inv []) (hnd : fds.Nodup)
    (hnone : ∀ fd ∈ fds, t.ofile np fd = none) : (forkFiles p np fds t).Inv [] := by
  induction fds generalizing t with
  | nil => exact h
  | cons fd fds ih =>
    obtain ⟨hfd, hnd⟩ := List.nodup_cons.mp hnd
    unfold forkFiles
    rcases hf : t.ofile p fd with _ | f
    · exact ih h hnd fun fd' hfd' => hnone fd' (List.mem_cons_of_mem _ hfd')
    · obtain ⟨t₁, hdup, h₁, hofile, -⟩ := filedup_inv h hf
      dsimp only
      rw [hdup]
      have hnone₁ : t₁.ofile np fd = none := by
        rw [hofile]
        exact hnone fd List.mem_cons_self
      have hf₁ : t₁.ofile p fd = some f := by rw [hofile, hf]
      refine ih (h₁.install hnone₁ (h₁.typed p fd f hf₁)) hnd fun fd' hfd' => ?_
      have hne : fd' ≠ fd := fun h => hfd (h ▸ hfd')
      rw [setOfile_ofile, if_neg fun h => hne h.2, hofile]
      exact hnone fd' (List.mem_cons_of_mem _ hfd')

theorem close_inv (h : t.Inv []) (hf : t.ofile p fd = some f) :
    (∃ t', fileclose f (t.setOfile p fd none) = .ok t' ∧ t'.Inv []) ∧
      ∃ t', fileclose f t = .ok t' ∧ (t'.setOfile p fd none).Inv [] := by
  obtain ⟨t', ht', hi⟩ := fileclose_inv (h.takeOut hf)
  refine ⟨⟨t', ht', hi⟩, ?_⟩
  rw [fileclose_setOfile] at ht'
  rcases hc : fileclose f t with s | t₁
  · rw [hc] at ht'
    cases ht'
  · rw [hc] at ht'
    obtain rfl := Except.ok.inj ht'
    exact ⟨t₁, rfl, hi⟩

theorem exitFiles_inv {fds : List (Fin NOFILE)} (h : t.Inv []) : (exitFiles p fds t).Inv [] := by
  induction fds generalizing t with
  | nil => exact h
  | cons fd fds ih =>
    unfold exitFiles
    rcases hf : t.ofile p fd with _ | f
    · exact ih h
    · obtain ⟨-, t', ht', hi⟩ := close_inv h hf
      dsimp only
      rw [ht']
      exact ih hi

theorem sysClose_inv (h : t.Inv []) : (sysClose p fd t).Inv [] := by
  unfold sysClose
  rcases hf : t.ofile p fd with _ | f
  · exact h
  · obtain ⟨⟨t', ht', hi⟩, -⟩ := close_inv h hf
    dsimp only
    rw [closeOrPanic, ht']
    exact hi

theorem sysFileOp_inv {op : File → FileOp} {k : ℕ} (h : t.Inv [])
    (hop : ∀ f s, t.ofile p fd = some f → op (t.file f) ≠ .panic s) :
    (sysFileOp op p fd k t).Inv [] := by
  unfold sysFileOp
  rcases hf : t.ofile p fd with _ | f
  · exact h
  · dsimp only
    rcases ho : op (t.file f) with _ | pipe | _ | ⟨ip, off⟩ | s
    · exact h
    · exact h
    · exact h
    · exact h.setFile (h := fun r => { r with off := r.off + k }) (fun _ => rfl)
        fun r hr => ⟨hr.type, hr.readable⟩
    · exact absurd ho (hop f s hf)

end Calls

/-! ## Dispatch -/

/-- **`fileread` panics exactly on a memo.** -/
theorem fileread_panic_iff {r : File} (h : r.Typed) :
    (∃ s, fileread r = .panic s) ↔ r.type = .memo := by
  have htype := h.type
  constructor
  · rintro ⟨s, hs⟩
    unfold fileread at hs
    split_ifs at hs with h₁ h₂ h₃
    cases hr : r.type <;> simp_all
  · intro hm
    refine ⟨"fileread", ?_⟩
    simp [fileread, hm, h.readable hm]

theorem filewrite_ne_panic {r : File} (h : r.Typed) (s : String) : filewrite r ≠ .panic s := by
  have htype := h.type
  intro hs
  unfold filewrite at hs
  split_ifs at hs
  cases hr : r.type <;> simp_all

theorem filestat_ne_panic (r : File) (s : String) : filestat r ≠ .panic s := by
  unfold filestat
  split_ifs <;> simp

/-! ## Runs -/

/-- The call does not read a memo. -/
def NoMemoRead (t : Files) (e : FileEvent) (_ : Files) : Prop :=
  ∀ p fd k f, e = .read p fd k → t.ofile p fd = some f → (t.file f).type ≠ .memo

theorem filesBoot_inv : filesBoot.Inv [] := by
  refine ⟨fun f => ?_, fun p fd f h => ?_, rfl⟩
  · change 0 = (∑ _x : Slot × Fin NOFILE, 0) + 0
    simp
  · cases h

/-- **What one call keeps.** -/
theorem filesInv_step {t t' : Files} {e : FileEvent} (h : t.Inv []) (he : NoMemoRead t e t')
    (hs : fileStep e t = some t') : t'.Inv [] := by
  have hrun : t.panicked.isSome = false := by simp [h.running]
  cases e with
  | «open» p omode ip =>
    obtain rfl : sysOpen p omode ip t = t' := by simpa [fileStep, hrun] using hs
    exact openFile_inv h (fun _ => rfl) fun _ => ⟨by simp, by simp⟩
  | pipe p page =>
    obtain rfl : sysPipe p page t = t' := by simpa [fileStep, hrun] using hs
    exact sysPipe_inv h
  | memo p =>
    obtain rfl : sysMemoFile p t = t' := by simpa [fileStep, hrun] using hs
    exact openFile_inv h (fun _ => rfl) fun _ => ⟨by simp, by simp⟩
  | dup p fd =>
    obtain rfl : sysDup p fd t = t' := by simpa [fileStep, hrun] using hs
    exact sysDup_inv h
  | fork p np =>
    obtain ⟨⟨-, hnone⟩, rfl⟩ : (p ≠ np ∧ ∀ fd, t.ofile np fd = none) ∧
        forkFiles p np (List.finRange NOFILE) t = t' := by
      simpa [fileStep, hrun] using hs
    exact forkFiles_inv h (List.nodup_finRange _) fun fd _ => hnone fd
  | close p fd =>
    obtain rfl : sysClose p fd t = t' := by simpa [fileStep, hrun] using hs
    exact sysClose_inv h
  | exit p =>
    obtain rfl : exitFiles p (List.finRange NOFILE) t = t' := by simpa [fileStep, hrun] using hs
    exact exitFiles_inv h
  | read p fd k =>
    obtain rfl : sysFileOp fileread p fd k t = t' := by simpa [fileStep, hrun] using hs
    refine sysFileOp_inv h fun f s hf hp => ?_
    exact he p fd k f rfl hf ((fileread_panic_iff (h.typed p fd f hf)).mp ⟨s, hp⟩)
  | write p fd k =>
    obtain rfl : sysFileOp filewrite p fd k t = t' := by simpa [fileStep, hrun] using hs
    exact sysFileOp_inv h fun f s hf => filewrite_ne_panic (h.typed p fd f hf) s
  | fstat p fd =>
    obtain rfl : sysFileOp filestat p fd 0 t = t' := by simpa [fileStep, hrun] using hs
    exact sysFileOp_inv h fun f s _ => filestat_ne_panic _ s

theorem noMemoRead_of_running {t t' : Files} {e : FileEvent} (h : t.Inv [])
    (hs : fileStep e t = some t') (hr : t'.panicked = none) : NoMemoRead t e t' := by
  intro p fd k f he hf hm
  subst he
  obtain ⟨s, hp⟩ := (fileread_panic_iff (h.typed p fd f hf)).mpr hm
  have ht' : t.panic s = t' := by
    simpa [fileStep, h.running, sysFileOp, hf, hp, Files.dispatch] using hs
  rw [← ht'] at hr
  cases hr

/-- **Open files are safe.** In every run of system calls on descriptors, by any processes, no call
reaches `panic("fileread")`, `panic("filewrite")`, `panic("filedup")` or `panic("fileclose")` if and
only if no `read` is on a memo. -/
theorem files_safe_iff (es : List FileEvent) :
    Throughout fileStep (fun t => t.panicked = none) es filesBoot ↔
      Along fileStep NoMemoRead es filesBoot := by
  refine throughout_iff_along_of_keeps (I := fun t => t.Inv []) ?_ ?_ ?_ filesBoot_inv
  · exact fun t h => h.running
  · exact fun t e t' h he hs => filesInv_step h he hs
  · exact fun t e t' h hs hr => noMemoRead_of_running h hs hr

/-- `memo()`, then `read` on the descriptor. -/
theorem memo_read_panics :
    ¬ ∀ es, Throughout fileStep (fun t => t.panicked = none) es filesBoot := by
  intro h
  have hend := (h [.memo 0, .read 0 0 1]).end rfl
  exact absurd hend (by decide +kernel)

end OsPlayground
