import OsPlayground.Proc.Queue

/-!
# What one step can do

* `Moves t e t'`: every case of `step`, with the guards that were met; **`step_moves`**.
* `Proc.Woken`: what `wakeup1` and the loop of `exit` may do to a process.
* `Proc.Assigned`: what a system call of a process may assign to its own fields.
-/

namespace OsPlayground

namespace Ptable

/-- The CPU `c` runs the process `p` and does not hold `ptable.lock` across a context switch. -/
structure Runs (t : Ptable) (c : ℕ) (p : Slot) : Prop where
  cpu : t.cpu c = some p
  not_scheduler : t.lock ≠ .scheduler c
  not_process : t.lock ≠ .process c

variable {t : Ptable} {c : ℕ} {p : Slot}

theorem myproc_eq_some : t.myproc c = some p ↔ t.Runs c p := by
  unfold myproc
  constructor
  · intro h
    split_ifs at h with hl
    rw [not_or] at hl
    exact ⟨h, hl.1, hl.2⟩
  · intro h
    rw [if_neg (not_or.mpr ⟨h.not_scheduler, h.not_process⟩), h.cpu]

theorem caller_eq_some : t.caller c = some p ↔ t.Runs c p ∧ (t.proc p).call = .none := by
  rw [caller, Option.filter_eq_some_iff, myproc_eq_some, decide_eq_true_iff]

end Ptable

/-- The assignments to the fields of the calling process that are the whole of an event. -/
def Event.assigned : Event → Option (ℕ × (Proc → Proc))
  | .fault c => some (c, fun r => { r with killed := true })
  | .getshared c idx =>
    if idx < MAXSHAREDPG then
      some (c, fun r => { r with sharedrec := Function.update r.sharedrec idx true })
    else none
  | .releaseshared c idx =>
    if idx < MAXSHAREDPG then
      some (c, fun r => { r with sharedrec := Function.update r.sharedrec idx false })
    else none
  | .fdalloc c f => some (c, OsPlayground.fdalloc f)
  | .close c fd => some (c, fun r => { r with ofile := Function.update r.ofile fd none })
  | .splitw c i => some (c, fun r => { r with widx := i })
  | _ => none

/-- **What a step can do.** -/
inductive Moves (t : Ptable) : Event → Ptable → Prop
  | userinit {p t₁} (hlock : t.lock = .free) (hinit : t.initproc = none)
      (halloc : allocproc t = some (p, t₁)) :
      Moves t .userinit (qpush p ({ allocprocInit p t₁ with initproc := some p }.setProc p
        fun r => { r with state := .runnable }))
  | idle {c} (hlock : t.lock = .free) (hcpu : t.cpu c = none) (hs : (schedule t).2 = none) :
      Moves t (.dispatch c) (schedule t).1
  | dispatch {c p} (hlock : t.lock = .free) (hcpu : t.cpu c = none)
      (hs : (schedule t).2 = some p) :
      Moves t (.dispatch c) { (schedule t).1.setProc p fun r => { r with state := .running } with
        cpu := Function.update (schedule t).1.cpu c (some p), lock := .process c }
  | resume {c p} (hlock : t.lock = .process c) (hcpu : t.cpu c = some p) :
      Moves t (.resume c) (resume c p t)
  | schedReturn {c} (hlock : t.lock = .scheduler c) :
      Moves t (.schedReturn c) { t with cpu := Function.update t.cpu c none, lock := .free }
  | timer {c p} (hlock : t.lock = .free) (hp : t.Runs c p) : Moves t (.timer c) (timer c p t)
  | assign {e c p f} (he : e.assigned = some (c, f)) (hp : t.Runs c p)
      (hcall : (t.proc p).call = .none) : Moves t e (t.setProc p f)
  | yield {c p} (hlock : t.lock = .free) (hp : t.Runs c p) : Moves t (.yield c) (yield c p t)
  | sleep {c p chan} (hlock : t.lock = .free) (hp : t.Runs c p) :
      Moves t (.sleep c chan) (sleep c p (.addr chan) .sleep t)
  | wakeup {chan} (hlock : t.lock = .free) : Moves t (.wakeup chan) (wakeup1 chan t)
  | kill {pid} (hlock : t.lock = .free) : Moves t (.kill pid) (kill pid t).1
  | allocFail {c} (hlock : t.lock = .free) : Moves t (.allocproc c) t
  | alloc {c p np t₁} (hlock : t.lock = .free) (hp : t.Runs c p)
      (hcall : (t.proc p).call = .none) (halloc : allocproc t = some (np, t₁)) :
      Moves t (.allocproc c) (t₁.setProc p fun r => { r with call := .allocproc np })
  | allocInit {c p np} (hp : t.Runs c p) (hcall : (t.proc p).call = .allocproc np) :
      Moves t (.allocprocInit c true)
        ((allocprocInit np t).setProc p fun r => { r with call := .fork np })
  | allocFree {c p np} (hp : t.Runs c p) (hcall : (t.proc p).call = .allocproc np) :
      Moves t (.allocprocInit c false)
        ((freeEmbryo np t).setProc p fun r => { r with call := .none })
  | forkCopy {c p np} (hp : t.Runs c p) (hcall : (t.proc p).call = .fork np) :
      Moves t (.forkCopy c true)
        ((forkCopy p np t).setProc p fun r => { r with call := .forked np })
  | forkFree {c p np} (hp : t.Runs c p) (hcall : (t.proc p).call = .fork np) :
      Moves t (.forkCopy c false) ((freeEmbryo np t).setProc p fun r => { r with call := .none })
  | forkCommit {c p np} (hlock : t.lock = .free) (hp : t.Runs c p)
      (hcall : (t.proc p).call = .forked np) :
      Moves t (.forkCommit c) ((forkCommit np t).setProc p fun r => { r with call := .none })
  | exitFiles {c p} (hp : t.Runs c p) (hcall : (t.proc p).call = .none)
      (hinit : t.initproc ≠ some p) :
      Moves t (.exitFiles c) (t.setProc p fun r => { r with ofile := fun _ => none, call := .exit })
  | exit {c p} (hlock : t.lock = .free) (hp : t.Runs c p) (hcall : (t.proc p).call = .exit) :
      Moves t (.exit c) (exit c p t)
  | wait {c p} (hlock : t.lock = .free) (hp : t.Runs c p) (hcall : (t.proc p).call = .none) :
      Moves t (.wait c) (waitLoop c p t).1

section Inversion

variable {t t' : Ptable} {c : ℕ}

theorem locked_eq_some {f : Ptable → Option Ptable} :
    t.locked f = some t' ↔ t.lock = .free ∧ f t = some t' := by
  unfold Ptable.locked
  by_cases h : t.lock = .free <;> simp [h]

theorem assign_eq_some {f : Proc → Proc} : t.assign c f = some t' ↔
    ∃ p, t.Runs c p ∧ (t.proc p).call = .none ∧ t.setProc p f = t' := by
  simp only [Ptable.assign, Option.map_eq_some_iff, Ptable.caller_eq_some, and_assoc]

theorem map_myproc {f : Slot → Ptable} :
    (t.myproc c).map f = some t' ↔ ∃ p, t.Runs c p ∧ f p = t' := by
  simp only [Option.map_eq_some_iff, Ptable.myproc_eq_some]

theorem map_caller {f : Slot → Ptable} :
    (t.caller c).map f = some t' ↔ ∃ p, t.Runs c p ∧ (t.proc p).call = .none ∧ f p = t' := by
  simp only [Option.map_eq_some_iff, Ptable.caller_eq_some, and_assoc]

theorem bind_myproc {f : Slot → Option Ptable} :
    (t.myproc c).bind f = some t' ↔ ∃ p, t.Runs c p ∧ f p = some t' := by
  simp only [Option.bind_eq_some_iff, Ptable.myproc_eq_some]

theorem bind_caller {f : Slot → Option Ptable} :
    (t.caller c).bind f = some t' ↔
      ∃ p, t.Runs c p ∧ (t.proc p).call = .none ∧ f p = some t' := by
  simp only [Option.bind_eq_some_iff, Ptable.caller_eq_some, and_assoc]

theorem dispatch_moves (h : step (.dispatch c) t = some t') : Moves t (.dispatch c) t' := by
  simp only [step] at h
  split_ifs at h with hg
  rcases hs : schedule t with ⟨t₁, _ | p⟩
  · rw [hs] at h
    obtain rfl : t₁ = t' := by simpa using h
    have := Moves.idle hg.1 hg.2 (by rw [hs])
    rwa [hs] at this
  · rw [hs] at h
    simp only [Option.some.injEq] at h
    subst h
    have := Moves.dispatch hg.1 hg.2 (show (schedule t).2 = some p by rw [hs])
    rwa [hs] at this

theorem assign_moves {e : Event} {f : Proc → Proc} (he : e.assigned = some (c, f))
    (h : t.assign c f = some t') : Moves t e t' := by
  obtain ⟨p, hp, hcall, rfl⟩ := assign_eq_some.mp h
  exact .assign he hp hcall

theorem allocproc_moves (h : step (.allocproc c) t = some t') : Moves t (.allocproc c) t' := by
  simp only [step, locked_eq_some, map_caller] at h
  obtain ⟨hl, p, hp, hcall, h⟩ := h
  rcases ha : allocproc t with _ | ⟨np, t₁⟩
  · rw [ha] at h
    subst h
    exact .allocFail hl
  · rw [ha] at h
    subst h
    exact .alloc hl hp hcall ha

theorem allocprocInit_moves {ok : Bool} (h : step (.allocprocInit c ok) t = some t') :
    Moves t (.allocprocInit c ok) t' := by
  simp only [step, bind_myproc] at h
  obtain ⟨p, hp, h⟩ := h
  split at h
  · obtain rfl := Option.some.inj h
    exact .allocInit hp (by assumption)
  · obtain rfl := Option.some.inj h
    exact .allocFree hp (by assumption)
  · cases h

theorem forkCopy_moves {ok : Bool} (h : step (.forkCopy c ok) t = some t') :
    Moves t (.forkCopy c ok) t' := by
  simp only [step, bind_myproc] at h
  obtain ⟨p, hp, h⟩ := h
  split at h
  · obtain rfl := Option.some.inj h
    exact .forkCopy hp (by assumption)
  · obtain rfl := Option.some.inj h
    exact .forkFree hp (by assumption)
  · cases h

theorem forkCommit_moves (h : step (.forkCommit c) t = some t') : Moves t (.forkCommit c) t' := by
  simp only [step, locked_eq_some, bind_myproc] at h
  obtain ⟨hl, p, hp, h⟩ := h
  split at h
  · obtain rfl := Option.some.inj h
    exact .forkCommit hl hp (by assumption)
  · cases h

/-- **Inversion.** -/
theorem step_moves {e : Event} (h : step e t = some t') : Moves t e t' := by
  cases e with
  | userinit =>
    simp only [step, userinit] at h
    split_ifs at h with hg
    obtain ⟨⟨p, t₁⟩, ha, rfl⟩ := Option.map_eq_some_iff.mp h
    exact .userinit hg.1 hg.2 ha
  | dispatch c => exact dispatch_moves h
  | resume c =>
    simp only [step] at h
    split_ifs at h with hg
    obtain ⟨p, hp, rfl⟩ := Option.map_eq_some_iff.mp h
    exact .resume hg hp
  | schedReturn c =>
    simp only [step] at h
    split_ifs at h with hg
    obtain rfl := Option.some.inj h
    exact .schedReturn hg
  | timer c =>
    simp only [step, locked_eq_some, map_myproc] at h
    obtain ⟨hl, p, hp, rfl⟩ := h
    exact .timer hl hp
  | fault c => exact assign_moves rfl h
  | yield c =>
    simp only [step, locked_eq_some, map_myproc] at h
    obtain ⟨hl, p, hp, rfl⟩ := h
    exact .yield hl hp
  | sleep c chan =>
    simp only [step, locked_eq_some, map_myproc] at h
    obtain ⟨hl, p, hp, rfl⟩ := h
    exact .sleep hl hp
  | wakeup chan =>
    simp only [step, locked_eq_some, Option.some.injEq] at h
    obtain ⟨hl, rfl⟩ := h
    exact .wakeup hl
  | kill pid =>
    simp only [step, locked_eq_some, Option.some.injEq] at h
    obtain ⟨hl, rfl⟩ := h
    exact .kill hl
  | allocproc c => exact allocproc_moves h
  | allocprocInit c ok => exact allocprocInit_moves h
  | forkCopy c ok => exact forkCopy_moves h
  | forkCommit c => exact forkCommit_moves h
  | exitFiles c =>
    simp only [step, bind_caller] at h
    obtain ⟨p, hp, hcall, h⟩ := h
    split_ifs at h with hinit
    obtain rfl := Option.some.inj h
    exact .exitFiles hp hcall hinit
  | exit c =>
    simp only [step, locked_eq_some, bind_myproc] at h
    obtain ⟨hl, p, hp, h⟩ := h
    split_ifs at h with hcall
    obtain rfl := Option.some.inj h
    exact .exit hl hp hcall
  | wait c =>
    simp only [step, locked_eq_some, map_caller] at h
    obtain ⟨hl, p, hp, hcall, rfl⟩ := h
    exact .wait hl hp hcall
  | getshared c idx =>
    simp only [step] at h
    split_ifs at h with hidx
    exact assign_moves (by simp [Event.assigned, hidx]) h
  | releaseshared c idx =>
    simp only [step] at h
    split_ifs at h with hidx
    exact assign_moves (by simp [Event.assigned, hidx]) h
  | fdalloc c f => exact assign_moves rfl h
  | close c fd => exact assign_moves rfl h
  | splitw c i => exact assign_moves rfl h

end Inversion

end OsPlayground
