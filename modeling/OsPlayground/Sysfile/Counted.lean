import Mathlib.Algebra.BigOperators.Group.Finset.Piecewise
import OsPlayground.Sysfile.Balanced

/-!
# References are counted between system calls

* `RefsCounted`: the counts of the file table, the inode cache and the pipes.
* `Between`, `between_step`: the invariant between system calls, and what one call keeps.
* **`refs_counted`**: on any disk, in every run of system calls by any processes.
-/

namespace OsPlayground

namespace Sysfile

open Lib
open Fs (Store)

/-- **References are counted.** -/
structure RefsCounted (s : Sys) : Prop where
  /-- A file is counted once for each descriptor, and an entry without references is free. -/
  files : ∀ f, (s.files.file f).ref = s.files.holders f
  free : ∀ f, (s.files.file f).ref = 0 ↔ (s.files.file f).type = .none
  /-- An inode is counted once for each `FD_INODE` file and each current directory. -/
  inodes : ∀ e, (s.icache e).ref = inodeFiles s.files e + cwds s.cwd e
  distinct : ∀ e e', 0 < (s.icache e).ref → 0 < (s.icache e').ref →
    (s.icache e).dev = (s.icache e').dev → (s.icache e).inum = (s.icache e').inum → e = e'
  /-- The ends of the pipes are the open files on them. -/
  readopen : ∀ page, (s.pipe page).readopen = true ↔
    ∃ f, 0 < (s.files.file f).ref ∧ (s.files.file f).type = .pipe ∧ (s.files.file f).pipe = page ∧
      (s.files.file f).writable = false
  writeopen : ∀ page, (s.pipe page).writeopen = true ↔
    ∃ f, 0 < (s.files.file f).ref ∧ (s.files.file f).type = .pipe ∧ (s.files.file f).pipe = page ∧
      (s.files.file f).writable = true

/-- The invariant between system calls: only processes with a current directory have descriptors. -/
def Between (s : Sys) : Prop := Holds (fun q _ => s.cwd q ≠ none) s.cwd none [] [] s

variable {a : Slot → Fin NOFILE → Prop} {c : Slot → Option ℕ} {s : Sys} {p : Slot}

theorem Holds.ends (h : Holds a c none [] [] s) (page : ℕ) (w : Bool) :
    (s.pipe page).isOpen w = true ↔
      ∃ f, 0 < (s.files.file f).ref ∧ (s.files.file f).type = .pipe ∧
        (s.files.file f).pipe = page ∧ (s.files.file f).writable = w := by
  rw [h.pipes page w]
  constructor
  · rintro ⟨f, hf⟩
    refine ⟨f, Nat.pos_of_ne_zero fun hz => ?_, hf⟩
    have hnone := h.free f hz
    rw [hf.1] at hnone
    cases hnone
  · rintro ⟨f, -, hf⟩
    exact ⟨f, hf⟩

theorem Between.refsCounted (h : Between s) : RefsCounted s where
  files f := (h.files f).trans (by rw [List.count_nil, add_zero])
  free f := by
    refine ⟨h.free f, fun hz => ?_⟩
    rw [h.files f, List.count_nil, add_zero]
    exact (h.typed f hz).resolve_right nofun
  inodes e := (h.inodes e).trans (by rw [List.count_nil, add_zero])
  distinct := h.distinct
  readopen page := h.ends page false
  writeopen page := h.ends page true

/-- **What a system call keeps.** -/
theorem run_spec {call : SysCall} (hp : c p ≠ none) (hok : call.Ok s) :
    Triple (fun s' => s' = s ∧ Holds (fun q _ => c q ≠ none) c none [] [] s) (call.run p) fun _ s' =>
      ∃ c', Holds (fun q _ => c' q ≠ none) c' none [] [] s' := by
  have hall : ∀ _fd : Fin NOFILE, c p ≠ none := fun _ => hp
  have hsame : ∀ {m : SysM ℤ}, Triple (Holds (fun q _ => c q ≠ none) c none [] []) m
      (fun _ => Holds (fun q _ => c q ≠ none) c none [] []) →
      Triple (fun s' => s' = s ∧ Holds (fun q _ => c q ≠ none) c none [] [] s) m fun _ s' =>
        ∃ c', Holds (fun q _ => c' q ≠ none) c' none [] [] s' := fun hm =>
    hm.conseq (fun s' hs' => hs'.1 ▸ hs'.2) fun _ _ h => ⟨c, h⟩
  cases call with
  | «open» path omode => exact hsame (sysOpen_spec hall path omode)
  | memo => exact hsame (sysMemo_spec hall)
  | pipe ok page =>
    refine (sysPipe_spec hall ok (q := s.pipe) ?_).conseq (fun s' hs' => start hs'.2 hs'.1)
      fun _ _ h => ⟨c, h⟩
    rintro page ⟨⟩ w
    cases w with
    | false => exact hok.1
    | true => exact hok.2
  | dup fd => exact hsame (sysDup_spec hall fd)
  | close fd => exact hsame (sysClose_spec fd)
  | fork np =>
    rcases np with _ | np
    · exact hsame (Triple.pure fun _ h => h)
    · refine Triple.intro fun s' hs' => ?_
      have hnp : c np = none := by rw [← hs'.2.cwd]; exact hok
      refine (fork_spec (fun fd ha => ha hnp) hnp).conseq (fun _ h => h ▸ hs'.1 ▸ hs'.2)
        fun _ t h => ?_
      obtain ⟨ip, h⟩ := h
      refine ⟨_, h.widen fun q d ha => ?_⟩
      by_cases hq : q = np
      · rw [hq, Function.update_self]
        exact Option.some_ne_none ip
      · rw [Function.update_of_ne hq]
        exact ha.resolve_right hq
  | exec path reads ok => exact hsame (exec_spec path reads ok)
  | chdir path =>
    refine (sysChdir_spec path).conseq (fun s' hs' => hs'.1 ▸ hs'.2) fun _ t h => ?_
    obtain ⟨c', hc', h⟩ := h
    exact ⟨c', h.widen fun q _ hq hz => hq ((hc' q).mp hz)⟩
  | link old new => exact hsame (sysLink_spec old new)
  | unlink path => exact hsame (sysUnlink_spec path)
  | mkdir path => exact hsame (sysMkdir_spec path)
  | mknod path major minor => exact hsame (sysMknod_spec path major minor)
  | exit =>
    refine exit_spec.conseq (fun s' hs' => hs'.1 ▸ hs'.2) fun _ t h => ⟨_, h.widen fun q _ ha => ?_⟩
    rw [Function.update_of_ne ha.2]
    exact ha.1

/-- **What one step keeps.** -/
theorem between_step {s s' : Sys} {e : Slot × SysCall} (h : Between s) (hs : sysStep e s = some s') :
    Between s' := by
  unfold sysStep at hs
  split_ifs at hs with hok
  split at hs
  · rename_i x hx
    obtain rfl := Option.some.inj hs
    obtain ⟨c', hc'⟩ := run_spec hok.1 hok.2 s x.1 x.2 ⟨rfl, h⟩ hx
    unfold Between
    rw [hc'.cwd]
    exact hc'
  · cases hs

theorem filesBoot_holders (f : Fin NFILE) : filesBoot.holders f = 0 := by
  have h := filesBoot_inv.counted f
  rw [List.count_nil, add_zero] at h
  exact h.symm

theorem filesBoot_inodeFiles (e : ℕ) : inodeFiles filesBoot e = 0 :=
  Finset.sum_eq_zero fun _ _ => if_neg fun h => by cases h.1

theorem sysBoot_cwds (fs : Store) (e : ℕ) :
    cwds (sysBoot fs).cwd e = if e = 0 then 1 else 0 := by
  have hterm : ∀ p, (sysBoot fs).cwd p = some e ↔ p = initproc ∧ e = 0 := fun p => by
    by_cases hp : p = initproc
    · simp [sysBoot, hp, eq_comm]
    · simp [sysBoot, hp]
  unfold cwds
  simp only [hterm]
  by_cases he : e = 0
  · simp [he]
  · simp [he]

theorem sysBoot_ref (fs : Store) (e : ℕ) :
    ((sysBoot fs).icache e).ref = if e = 0 then 1 else 0 := by
  unfold sysBoot
  dsimp only
  split_ifs
  · rfl
  · rfl

theorem sysBoot_between (fs : Store) : Between (sysBoot fs) := by
  have hno : ∀ page w f, ¬ IsEnd page w ((sysBoot fs).files.file f) := fun _ _ _ h => by cases h.1
  have hzero : ∀ e, 0 < ((sysBoot fs).icache e).ref → e = 0 := fun e he => by
    rw [sysBoot_ref] at he
    by_contra hne
    rw [if_neg hne] at he
    exact absurd he (Nat.lt_irrefl 0)
  refine ⟨fun f => ?_, fun _ _ => rfl, fun f _ => .inl (filesBoot_holders f), nofun, rfl,
    fun e => ?_, fun e he => ?_, fun e e' he he' _ _ => (hzero e he).trans (hzero e' he').symm,
    fun page w => iff_of_false ?_ fun ⟨f, hf⟩ => hno page w f hf,
    fun page w f _ hf _ => absurd hf (hno page w f), fun _ _ _ => rfl⟩
  · exact filesBoot_inv.counted f
  · rw [sysBoot_ref, sysBoot_cwds, List.count_nil, add_zero]
    change _ = inodeFiles filesBoot e + _
    rw [filesBoot_inodeFiles, zero_add]
  · rw [hzero e he]
    decide
  · cases w <;> simp [sysBoot, Ends.isOpen]

/-- **References are counted.** In every run of `open`, `memo`, `pipe`, `dup`, `close`, `fork`,
`exec`, `chdir`, `link`, `unlink`, `mkdir`, `mknod` and `exit` calls by any processes, on any disk,
the references are counted before and after each call. -/
theorem refs_counted (fs : Store) (es : List (Slot × SysCall)) :
    Throughout sysStep RefsCounted es (sysBoot fs) :=
  (throughout_of_inv (fun _ _ _ => between_step) (sysBoot_between fs)).mono
    fun _ => Between.refsCounted

/-- A memo in two descriptors of the parent and two of the child, and a pipe. -/
example (fs : Store) : ((run sysStep [(0, .memo), (0, .dup (some 0)), (0, .fork (some 1)),
    (1, .pipe true (some 7)), (1, .close (some 2))] (sysBoot fs)).map fun s =>
      ((s.files.file 0).ref, (s.icache 0).ref, (s.pipe 7).readopen, (s.pipe 7).writeopen)) =
    some (4, 2, false, true) := by
  rfl

end Sysfile

end OsPlayground
