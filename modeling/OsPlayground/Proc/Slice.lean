import OsPlayground.Proc.Fifo

/-!
# Time slices

The clock interrupt of `trap`, with its decrement outside `ptable.lock` and the `yield` after it as
steps of their own, beside all the other steps of the process table.

* `Clocked`, `clockStep`: the table, the CPUs between decrement and `yield`, and how many ticks each
  process got since it was dispatched.
* `Slices t t' ps`: what a step does to time pieces and priorities; **`step_slices`**.
* `SliceInv`: the time piece and the ticks of a running process make up its slice.
* **`slices_exact`**: priorities, time pieces and ticks of every reachable state.
-/

namespace OsPlayground

open Lib

/-- The slice of a priority, as `qpush` writes it. -/
abbrev slice (priority : ℕ) : ℕ := 1 <<< (NPROCQ - priority - 1)

/-- The process has a whole slice. -/
def Proc.Full (r : Proc) : Prop := r.timepiece = slice r.priority

/-- The CPU whose process, or whose scheduler, takes the step. -/
def Event.cpu : Event → Option ℕ
  | .userinit | .wakeup _ | .kill _ => none
  | .dispatch c | .resume c | .schedReturn c | .timer c | .fault c | .yield c | .sleep c _
  | .allocproc c | .allocprocInit c _ | .forkCopy c _ | .forkCommit c | .exitFiles c | .exit c
  | .wait c | .getshared c _ | .releaseshared c _ | .fdalloc c _ | .close c _ | .splitw c _ => some c

/-- The table with the timer handlers. -/
structure Clocked where
  table : Ptable
  /-- The CPU is in the timer handler, after a decrement to 0 and before `yield`. -/
  handler : ℕ → Bool
  /-- History variable: the ticks since the process was dispatched. No function reads it. -/
  ticks : Slot → ℕ
  /-- History variable: the priority at which it was dispatched. -/
  level : Slot → ℕ

/-- No process has run. -/
def clockBoot : Clocked := ⟨boot, fun _ => false, fun _ => 0, fun _ => 0⟩

/-- The two halves of a timer interrupt, or another step. -/
inductive ClockEvent
  /-- The clock interrupt up to the test of the decremented time piece. -/
  | tick (c : ℕ)
  /-- The `yield` of the handler. -/
  | expire (c : ℕ)
  /-- Any other step. -/
  | other (e : Event)

/-- `--myproc()->timepiece` on 32 bits. -/
def decrement (r : Proc) : Proc := { r with timepiece := (r.timepiece + (2 ^ 32 - 1)) % 2 ^ 32 }

/-- A dispatch starts a new count. -/
def Clocked.dispatched (s : Clocked) : Event → Clocked
  | .dispatch c =>
    match s.table.cpu c with
    | none => s
    | some p => { s with
        ticks := Function.update s.ticks p 0
        level := Function.update s.level p (s.table.proc p).priority }
  | _ => s

/-- A CPU in the handler takes no other step before it yields: interrupts are off. -/
def clockStep : ClockEvent → Clocked → Option Clocked
  | .tick c, s =>
    if s.handler c then none
    else (s.table.myproc c).bind fun p =>
      if (s.table.proc p).state = .running then
        let table := s.table.setProc p decrement
        some { s with
          table := table
          handler := Function.update s.handler c (decide ((table.proc p).timepiece ≤ 0))
          ticks := Function.update s.ticks p (s.ticks p + 1) }
      else none
  | .expire c, s =>
    if s.handler c ∧ s.table.lock = .free then
      (s.table.myproc c).map fun p =>
        { s with table := yield c p s.table, handler := Function.update s.handler c false }
    else none
  | .other (.timer _), _ => none
  | .other e, s =>
    if e.cpu.all fun c => s.handler c = false then
      (step e s.table).map fun t => Clocked.dispatched { s with table := t } e
    else none

/-! ## What a step does to time pieces -/

/-- The two fields a slice depends on are kept. -/
def Proc.Unspent (r r' : Proc) : Prop := r'.timepiece = r.timepiece ∧ r'.priority = r.priority

theorem Proc.Unspent.full {r r' : Proc} (h : r.Unspent r') (hr : r.Full) : r'.Full := by
  unfold Proc.Full at *
  rw [h.1, h.2, hr]

/-- Apart from the processes `ps`, which were pushed and have a whole slice, time pieces and
priorities are kept; no process starts to run. -/
structure Slices (t t' : Ptable) (ps : List Slot) : Prop where
  log : t'.pushed = t.pushed ++ ps
  cpu : t'.cpu = t.cpu
  full : ∀ x ∈ ps, (t'.proc x).Full
  rest : ∀ x, (t'.proc x).Full ∨ (t.proc x).Unspent (t'.proc x)
  runs : ∀ x, (t'.proc x).state = .running →
    (t.proc x).state = .running ∧ (t.proc x).Unspent (t'.proc x)

namespace Slices

variable {t t' t'' : Ptable} {ps ps' : List Slot} {p np : Slot} {c : ℕ}

theorem trans (h : Slices t t' ps) (h' : Slices t' t'' ps') : Slices t t'' (ps ++ ps') := by
  have hkeep : ∀ x, (t'.proc x).Full → (t''.proc x).Full := fun x hx =>
    (h'.rest x).elim id fun hu => hu.full hx
  refine ⟨by rw [h'.log, h.log, List.append_assoc], h'.cpu.trans h.cpu, fun x hx => ?_, fun x => ?_,
    fun x hx => ?_⟩
  · rcases List.mem_append.mp hx with hx | hx
    · exact hkeep x (h.full x hx)
    · exact h'.full x hx
  · rcases h.rest x with hx | hx
    · exact .inl (hkeep x hx)
    · exact (h'.rest x).imp id fun hx' => ⟨hx'.1.trans hx.1, hx'.2.trans hx.2⟩
  · obtain ⟨hs', hu'⟩ := h'.runs x hx
    obtain ⟨hs, hu⟩ := h.runs x hs'
    exact ⟨hs, hu'.1.trans hu.1, hu'.2.trans hu.2⟩

theorem of_eq (hp : t'.proc = t.proc) (hl : t'.pushed = t.pushed) (hc : t'.cpu = t.cpu) :
    Slices t t' [] := by
  refine ⟨by rw [hl, List.append_nil], hc, fun x hx => absurd hx List.not_mem_nil, fun x => ?_,
    fun x hx => ?_⟩
  · rw [hp]
    exact .inr ⟨rfl, rfl⟩
  · rw [hp] at hx ⊢
    exact ⟨hx, rfl, rfl⟩

theorem setProc {f : Proc → Proc} (hf : (t.proc p).Unspent (f (t.proc p)))
    (hs : (f (t.proc p)).state = .running → (t.proc p).state = .running) :
    Slices t (t.setProc p f) [] := by
  refine ⟨(List.append_nil _).symm, rfl, fun x hx => absurd hx List.not_mem_nil, fun x => ?_,
    fun x hx => ?_⟩
  · by_cases hxp : x = p
    · subst hxp
      rw [Ptable.setProc_self]
      exact .inr hf
    · rw [Ptable.setProc_of_ne _ _ hxp]
      exact .inr ⟨rfl, rfl⟩
  · by_cases hxp : x = p
    · subst hxp
      rw [Ptable.setProc_self] at hx ⊢
      exact ⟨hs hx, hf⟩
    · rw [Ptable.setProc_of_ne _ _ hxp] at hx ⊢
      exact ⟨hx, rfl, rfl⟩

end Slices

theorem setNext_timepiece (t : Ptable) (z : Option Slot) (np x : Slot) :
    ((t.setNext z np).proc x).timepiece = (t.proc x).timepiece := by
  cases z with
  | none => rfl
  | some z =>
    rw [Ptable.setNext, Ptable.setProc_apply]
    split_ifs with hx
    · rw [hx]
    · rfl

theorem qpush_timepiece (np x : Slot) (t : Ptable) : ((qpush np t).proc x).timepiece =
    if x = np then slice (t.proc np).priority else (t.proc x).timepiece := by
  unfold qpush
  dsimp only
  by_cases hx : x = np
  · subst hx
    simp
  · rw [if_neg hx, Ptable.setProc_of_ne _ _ hx]
    split_ifs
    · dsimp only
      rw [Ptable.setProc_of_ne _ _ hx]
    · dsimp only
      rw [setNext_timepiece, Ptable.setProc_of_ne _ _ hx]

theorem qpush_full (np : Slot) (t : Ptable) : ((qpush np t).proc np).Full := by
  unfold Proc.Full
  rw [qpush_timepiece, if_pos rfl, qpush_priority]

/-- A push; `t₀` is `t` after assignments to the process pushed, which make it runnable. -/
theorem Slices.push {t t₀ : Ptable} {np : Slot} (hx : ∀ x, x ≠ np → t₀.proc x = t.proc x)
    (hl : t₀.pushed = t.pushed) (hc : t₀.cpu = t.cpu) (hs : (t₀.proc np).state = .runnable) :
    Slices t (qpush np t₀) [np] := by
  have hother := qpush_other np t₀
  have hun : ∀ x, x ≠ np → (t.proc x).Unspent ((qpush np t₀).proc x) := fun x hne => by
    refine ⟨?_, ?_⟩
    · rw [qpush_timepiece, if_neg hne, hx x hne]
    · rw [qpush_priority, hx x hne]
  refine ⟨by rw [hother.2.2.2.2, hl], by rw [hother.2.1, hc], fun x hm => ?_, fun x => ?_,
    fun x hr => ?_⟩
  · rw [List.mem_singleton.mp hm]
    exact qpush_full np t₀
  · by_cases hne : x = np
    · rw [hne]
      exact .inl (qpush_full np t₀)
    · exact .inr (hun x hne)
  · have hne : x ≠ np := by
      rintro rfl
      rw [qpush_state, hs] at hr
      cases hr
    rw [qpush_state, hx x hne] at hr
    exact ⟨hr, hun x hne⟩

section Pieces

variable {t t' : Ptable} {c : ℕ} {p np : Slot}

theorem sched_slices (ctx : Context) : Slices t (sched c p ctx t) [] :=
  .trans (.setProc (p := p) (f := fun r => { r with context := ctx }) ⟨rfl, rfl⟩ id)
    (.of_eq rfl rfl rfl)

theorem sleep_slices (chan : Chan) (ctx : Context) : Slices t (sleep c p chan ctx t) [] := by
  have h₁ : Slices t (t.setProc p fun r => { r with chan := chan, state := .sleeping }) [] :=
    .setProc ⟨rfl, rfl⟩ fun h => by cases h
  exact h₁.trans (sched_slices ctx)

theorem yield_slices : Slices t (yield c p t) [p] := by
  have h₁ : Slices t (qpush p ((t.setProc p fun r => { r with state := .runnable }).setProc p
      fun r => { r with priority := if 0 < r.priority then r.priority - 1 else r.priority })) [p] := by
    refine .push (fun x hx => ?_) rfl rfl ?_
    · rw [Ptable.setProc_of_ne _ _ hx, Ptable.setProc_of_ne _ _ hx]
    · simp only [Ptable.setProc_self]
  exact h₁.trans (sched_slices _)

theorem wakeOne_slices (chan : Chan) (t : Ptable) (p : Slot) :
    ∃ ps, Slices t (wakeOne chan t p) ps := by
  unfold wakeOne
  split_ifs
  · refine ⟨_, .push (fun x hx => ?_) rfl rfl ?_⟩
    · rw [Ptable.setProc_of_ne _ _ hx, Ptable.setProc_of_ne _ _ hx]
    · simp only [Ptable.setProc_self]
  · exact ⟨_, .of_eq rfl rfl rfl⟩

theorem Slices.foldl {f : Ptable → Slot → Ptable} (hf : ∀ t p, ∃ ps, Slices t (f t p) ps)
    (l : List Slot) (t : Ptable) : ∃ ps, Slices t (l.foldl f t) ps := by
  induction l generalizing t with
  | nil => exact ⟨[], .of_eq rfl rfl rfl⟩
  | cons p l ih =>
    obtain ⟨ps, h⟩ := hf t p
    obtain ⟨ps', h'⟩ := ih (f t p)
    exact ⟨_, h.trans h'⟩

theorem wakeup1_slices (chan : Chan) (t : Ptable) : ∃ ps, Slices t (wakeup1 chan t) ps :=
  Slices.foldl (wakeOne_slices chan) slots t

theorem reparentOne_slices (cur : Slot) (t : Ptable) (p : Slot) :
    ∃ ps, Slices t (reparentOne cur t p) ps := by
  have h₁ : Slices t (t.setProc p fun r => { r with parent := t.initproc }) [] :=
    .setProc ⟨rfl, rfl⟩ id
  unfold reparentOne
  dsimp only
  split_ifs
  · obtain ⟨ps, h₂⟩ := wakeup1_slices (Chan.ofProc t.initproc)
      (t.setProc p fun r => { r with parent := t.initproc })
    exact ⟨_, h₁.trans h₂⟩
  · exact ⟨_, h₁⟩
  · exact ⟨_, .of_eq rfl rfl rfl⟩

theorem exit_slices : ∃ ps, Slices t (exit c p t) ps := by
  obtain ⟨ps, h₁⟩ := wakeup1_slices (Chan.ofProc (t.proc p).parent) t
  unfold exit
  dsimp only
  generalize wakeup1 (Chan.ofProc (t.proc p).parent) t = t₁ at h₁ ⊢
  obtain ⟨ps', h₂⟩ := Slices.foldl (reparentOne_slices p) slots t₁
  generalize slots.foldl (reparentOne p) t₁ = t₂ at h₂ ⊢
  have h₃ : Slices t₂ (t₂.setProc p fun r => { r with state := .zombie, call := .none }) [] :=
    .setProc ⟨rfl, rfl⟩ fun h => by cases h
  exact ⟨_, ((h₁.trans h₂).trans h₃).trans (sched_slices _)⟩

theorem waitLoop_slices : Slices t (waitLoop c p t).1 [] := by
  unfold waitLoop
  rcases hz : zombieChild p t with _ | z
  · dsimp only
    split_ifs
    · exact .of_eq rfl rfl rfl
    · exact sleep_slices _ _
  · have h₁ : Slices t (reap z t) [] := .setProc ⟨rfl, rfl⟩ fun h => by cases h
    exact h₁.trans (.of_eq rfl rfl rfl)

theorem resume_slices : Slices t (resume c p t) [] := by
  have h₁ : Slices t (t.setProc p fun r => { r with chan := .null }) [] :=
    .setProc ⟨rfl, rfl⟩ id
  unfold resume
  cases (t.proc p).context with
  | forkret => exact .of_eq rfl rfl rfl
  | yield => exact .of_eq rfl rfl rfl
  | sleep => exact h₁.trans (.of_eq rfl rfl rfl)
  | wait => exact h₁.trans waitLoop_slices

theorem setCall_slices (t : Ptable) (p : Slot) (k : Call) :
    Slices t (t.setProc p fun r => { r with call := k }) [] := .setProc ⟨rfl, rfl⟩ id

theorem allocproc_slices {t₁ : Ptable} (h : allocproc t = some (np, t₁)) : Slices t t₁ [] := by
  obtain ⟨-, rfl⟩ := allocproc_spec h
  have h₁ : Slices t (t.setProc np fun r => { r with state := .embryo, pid := t.nextpid }) [] :=
    .setProc ⟨rfl, rfl⟩ fun h => by cases h
  exact h₁.trans (.of_eq rfl rfl rfl)

end Pieces

/-! ## One step -/

/-- **Every step** that is not a dispatch, a return to the scheduler or a clock interrupt keeps the
time pieces and priorities of all that it does not push, apart from a slot that a `fork` fills. -/
theorem step_slices {e : Event} {t t' : Ptable} (hd : ∀ c, e ≠ .dispatch c)
    (hr : ∀ c, e ≠ .schedReturn c) (ht : ∀ c, e ≠ .timer c) (hstep : step e t = some t') :
    (∃ ps, Slices t t' ps) ∨ ∃ c p np, t.Runs c p ∧ (t.proc p).call = .allocproc np ∧
      t' = (allocprocInit np t).setProc p fun r => { r with call := .fork np } := by
  cases step_moves hstep with
  | @userinit p t₁ hlock hinit halloc =>
    obtain ⟨-, ht₁⟩ := allocproc_spec halloc
    refine .inl ⟨_, .push (fun x hx => ?_) ?_ ?_ ?_⟩
    · simp only [allocprocInit, ht₁, Ptable.setProc_of_ne _ _ hx]
    · rw [ht₁]
      rfl
    · rw [ht₁]
      rfl
    · rw [Ptable.setProc_self]
  | idle hlock hcpu hs => exact absurd rfl (hd _)
  | dispatch hlock hcpu hs => exact absurd rfl (hd _)
  | resume hlock hcpu => exact .inl ⟨_, resume_slices⟩
  | schedReturn hlock => exact absurd rfl (hr _)
  | timer hlock hp => exact absurd rfl (ht _)
  | assign he hp hcall =>
    obtain ⟨k, s, o, w, hf⟩ := assigned_spec he (t.proc _)
    refine .inl ⟨_, .setProc ?_ ?_⟩
    · rw [hf]
      exact ⟨rfl, rfl⟩
    · rw [hf]
      exact id
  | yield hlock hp => exact .inl ⟨_, yield_slices⟩
  | sleep hlock hp => exact .inl ⟨_, sleep_slices _ _⟩
  | wakeup hlock => exact .inl (wakeup1_slices _ t)
  | @kill pid hlock =>
    rcases hk : killed? pid t with _ | p
    · rw [kill, hk]
      exact .inl ⟨_, .of_eq rfl rfl rfl⟩
    · rw [kill, hk]
      dsimp only
      refine .inl ⟨_, .setProc ⟨rfl, rfl⟩ fun h => ?_⟩
      dsimp only at h
      split_ifs at h
      exact h
  | allocFail hlock => exact .inl ⟨_, .of_eq rfl rfl rfl⟩
  | alloc hlock hp hcall halloc =>
    exact .inl ⟨_, (allocproc_slices halloc).trans (setCall_slices _ _ _)⟩
  | allocInit hp hcall => exact .inr ⟨_, _, _, hp, hcall, rfl⟩
  | @allocFree c p np hp hcall =>
    have h₁ : Slices t (freeEmbryo np t) [] := .setProc ⟨rfl, rfl⟩ fun h => by cases h
    exact .inl ⟨_, h₁.trans (setCall_slices _ _ _)⟩
  | @forkCopy c p np hp hcall =>
    have h₁ : Slices t (forkCopy p np t) [] := .setProc ⟨rfl, rfl⟩ id
    exact .inl ⟨_, h₁.trans (setCall_slices _ _ _)⟩
  | @forkFree c p np hp hcall =>
    have h₁ : Slices t (freeEmbryo np t) [] := .setProc ⟨rfl, rfl⟩ fun h => by cases h
    exact .inl ⟨_, h₁.trans (setCall_slices _ _ _)⟩
  | @forkCommit c p np hlock hp hcall =>
    have h₁ : Slices t (qpush np (t.setProc np fun r => { r with state := .runnable })) [np] :=
      .push (fun x hx => Ptable.setProc_of_ne _ _ hx) rfl rfl (by rw [Ptable.setProc_self])
    have h₂ := Slices.setProc (t := qpush np (t.setProc np fun r => { r with state := .runnable }))
      (p := np) (f := fun r => { r with
        sharedrec := fun i => if 1 ≤ i ∧ i < MAXSHAREDPG then false else r.sharedrec i }) ⟨rfl, rfl⟩ id
    exact .inl ⟨_, (h₁.trans h₂).trans (setCall_slices _ _ _)⟩
  | exitFiles hp hcall hinit => exact .inl ⟨_, .setProc ⟨rfl, rfl⟩ id⟩
  | exit hlock hp hcall => exact .inl exit_slices
  | wait hlock hp hcall => exact .inl ⟨_, waitLoop_slices⟩

/-- A pass of `scheduler` that finds a process leaves its slice as it was pushed. -/
theorem dispatch_slices {t t' : Ptable} {c : ℕ} (hq : t.Queues)
    (hstep : step (.dispatch c) t = some t') : t.cpu c = none ∧ (t' = t ∨
      ∃ q p, Dequeues t t' q p ∧ t'.cpu = Function.update t.cpu c (some p) ∧
        t'.proc p = { t.proc p with state := .running } ∧ ∀ x, x ≠ p → t'.proc x = t.proc x) := by
  have hcases := step_dispatch hq hstep
  have hframe := schedule_frame t
  cases step_moves hstep with
  | idle hlock hcpu hs =>
    refine ⟨hcpu, hcases.imp And.right ?_⟩
    rintro ⟨q, p, -, -, hp, -⟩
    rw [hframe.2.1, hcpu] at hp
    cases hp
  | @dispatch _ p hlock hcpu hs =>
    refine ⟨hcpu, hcases.imp And.right ?_⟩
    rintro ⟨q, p', hd, -, hp, hx⟩
    obtain rfl : p = p' := by simpa using hp
    refine ⟨q, p, hd, ?_, ?_, hx⟩
    · rw [← hframe.2.1]
    · dsimp only
      rw [Ptable.setProc_self, hframe.1]
  | assign he => cases he

/-! ## The invariant -/

theorem slice_eq (q : ℕ) : slice q = 2 ^ (NPROCQ - 1 - q) := by
  rw [slice, Nat.one_shiftLeft, Nat.sub_right_comm]

theorem slice_pos (q : ℕ) : 0 < slice q := by
  rw [slice_eq]
  exact Nat.two_pow_pos _

theorem slice_lt (q : ℕ) : slice q < 2 ^ 32 := by
  rw [slice_eq]
  exact Nat.pow_lt_pow_right (by decide) (by have : NPROCQ = 3 := rfl; omega)

theorem decrement_same (r : Proc) : (decrement r).next = r.next ∧ (decrement r).state = r.state ∧
    (decrement r).priority = r.priority ∧ (decrement r).call = r.call := by
  unfold decrement
  exact ⟨rfl, rfl, rfl, rfl⟩

theorem decrement_timepiece {r : Proc} (h : 0 < r.timepiece) (hlt : r.timepiece < 2 ^ 32) :
    (decrement r).timepiece + 1 = r.timepiece := by
  show (r.timepiece + (2 ^ 32 - 1)) % 2 ^ 32 + 1 = r.timepiece
  omega

/-- The invariant of time slices. -/
structure SliceInv (s : Clocked) : Prop where
  good : s.table.Good
  queued : ∀ q < NPROCQ, ∀ p ∈ s.table.level q, (s.table.proc p).Full
  /-- What is left of the slice and the ticks received make up the slice. -/
  running : ∀ p, (s.table.proc p).state = .running →
    (s.table.proc p).timepiece + s.ticks p = slice (s.table.proc p).priority ∧
      s.level p = (s.table.proc p).priority
  /-- Only in the timer handler is nothing left of it. -/
  expired : ∀ p, (s.table.proc p).state = .running → (s.table.proc p).timepiece = 0 →
    ∃ c, s.table.cpu c = some p ∧ s.handler c = true
  spent : ∀ p, s.ticks p ≤ slice (s.level p)

theorem clockBoot_inv : SliceInv clockBoot := by
  refine ⟨boot_good, ?_, ?_, ?_, fun p => Nat.zero_le _⟩
  · intro q hq p hp
    cases hp
  · intro p hp
    cases hp
  · intro p hp
    cases hp

namespace SliceInv

variable {s s' : Clocked} {t' : Ptable} {c : ℕ} {p : Slot} {e : Event}

theorem pos (h : SliceInv s) (hr : (s.table.proc p).state = .running)
    (hh : ∀ c, s.table.cpu c = some p → s.handler c = false) : 0 < (s.table.proc p).timepiece := by
  by_contra hz
  obtain ⟨c, hc, ht⟩ := h.expired p hr (Nat.eq_zero_of_not_pos hz)
  rw [hh c hc] at ht
  cases ht

theorem pos_of_runs (h : SliceInv s) (hp : s.table.Runs c p) (hh : s.handler c = false) :
    0 < (s.table.proc p).timepiece := by
  refine h.pos (h.good.inv.runs hp) fun c' hc' => ?_
  rw [h.good.inv.inj c' c p hc' hp.cpu]
  exact hh

theorem le_slice (h : SliceInv s) (hr : (s.table.proc p).state = .running) :
    (s.table.proc p).timepiece ≤ slice (s.table.proc p).priority := by
  have := (h.running p hr).1
  omega

theorem decrement (h : SliceInv s) (hp : s.table.Runs c p) (hh : s.handler c = false) :
    (decrement (s.table.proc p)).timepiece + 1 = (s.table.proc p).timepiece :=
  decrement_timepiece (h.pos_of_runs hp hh)
    ((h.le_slice (h.good.inv.runs hp)).trans_lt (slice_lt _))

theorem of_table (h : SliceInv s) (hgood : t'.Good)
    (hq : ∀ q < NPROCQ, ∀ p ∈ t'.level q, (t'.proc p).Full)
    (hruns : ∀ x, (t'.proc x).state = .running →
      (s.table.proc x).state = .running ∧ (s.table.proc x).Unspent (t'.proc x))
    {handler : ℕ → Bool} (hcpu : ∀ c x, s.table.cpu c = some x → s.handler c = true →
      (t'.proc x).state = .running → t'.cpu c = some x ∧ handler c = true) :
    SliceInv { s with table := t', handler := handler } := by
  refine ⟨hgood, hq, fun x hx => ?_, fun x hx hz => ?_, h.spent⟩
  · obtain ⟨hr, hu⟩ := hruns x hx
    show (t'.proc x).timepiece + s.ticks x = slice (t'.proc x).priority ∧
      s.level x = (t'.proc x).priority
    rw [hu.1, hu.2]
    exact h.running x hr
  · obtain ⟨hr, hu⟩ := hruns x hx
    obtain ⟨c, hc, hh⟩ := h.expired x hr (hu.1 ▸ hz)
    exact ⟨c, hcpu c x hc hh hx⟩

theorem queued_of_pushes (h : SliceInv s) {ps ps' : List Slot} (hpush : Pushes s.table t' ps)
    (hs : Slices s.table t' ps') : ∀ q < NPROCQ, ∀ p ∈ t'.level q, (t'.proc p).Full := by
  obtain rfl : ps' = ps := List.append_cancel_left (hs.log.symm.trans hpush.log)
  intro q hq p hp
  rw [hpush.level q hq] at hp
  rcases List.mem_append.mp hp with hp | hp
  · exact (hs.rest p).elim id fun hu => hu.full (h.queued q hq p hp)
  · exact hs.full p (List.mem_filter.mp hp).1

theorem pushes (h : SliceInv s) (hd : ∀ c, e ≠ .dispatch c) (hstep : step e s.table = some t') :
    ∃ ps, Pushes s.table t' ps := by
  by_cases hk : KillsSleeper s.table e
  · exact ⟨[], step_killsSleeper h.good.queues hk hstep⟩
  · obtain ⟨ps, hps⟩ := step_enqueues h.good.inv h.good.queues hd hk hstep
    exact ⟨ps, hps.toPushes⟩

/-- A tick. -/
theorem tick (h : SliceInv s) (hp : s.table.Runs c p) (hh : s.handler c = false) :
    SliceInv { s with
      table := s.table.setProc p OsPlayground.decrement
      handler := Function.update s.handler c
        (decide (((s.table.setProc p OsPlayground.decrement).proc p).timepiece ≤ 0))
      ticks := Function.update s.ticks p (s.ticks p + 1) } := by
  have hrun := h.good.inv.runs hp
  have hdec := h.decrement hp hh
  have hsum := h.running p hrun
  obtain ⟨hnext, hstate, hprio, hcall⟩ := decrement_same (s.table.proc p)
  have he : Enqueues s.table (s.table.setProc p OsPlayground.decrement) [] :=
    .setProc_same h.good.queues hnext hstate hprio
  have hinv : (s.table.setProc p OsPlayground.decrement).Inv :=
    h.good.inv.setProc hstate (congrArg Call.child hcall) (.inl hrun)
  refine ⟨⟨hinv, he.queues⟩, fun q hq x hx => ?_, fun x hx => ?_,
    fun x hx hz => ?_, fun x => ?_⟩
  · dsimp only at hx ⊢
    rw [he.level q hq, List.filter_nil, List.append_nil] at hx
    have hne : x ≠ p := by
      rintro rfl
      have := (h.good.queues.level q hq).state x hx
      rw [hrun] at this
      cases this
    rw [Ptable.setProc_of_ne _ _ hne]
    exact h.queued q hq x hx
  · dsimp only at hx ⊢
    by_cases hne : x = p
    · subst hne
      rw [Ptable.setProc_self, Function.update_self, hprio]
      refine ⟨?_, hsum.2⟩
      omega
    · rw [Ptable.setProc_of_ne _ _ hne] at hx ⊢
      rw [Function.update_of_ne hne]
      exact h.running x hx
  · dsimp only at hx hz ⊢
    by_cases hne : x = p
    · subst hne
      refine ⟨c, hp.cpu, ?_⟩
      rw [Function.update_self, hz]
      rfl
    · rw [Ptable.setProc_of_ne _ _ hne] at hx hz
      obtain ⟨c', hc', hh'⟩ := h.expired x hx hz
      refine ⟨c', hc', ?_⟩
      have hcc : c' ≠ c := by
        rintro rfl
        rw [hp.cpu] at hc'
        exact hne (Option.some.inj hc').symm
      rw [Function.update_of_ne hcc]
      exact hh'
  · dsimp only
    by_cases hne : x = p
    · subst hne
      rw [Function.update_self, hsum.2]
      omega
    · rw [Function.update_of_ne hne]
      exact h.spent x

theorem expire (h : SliceInv s) (hp : s.table.Runs c p) (hlock : s.table.lock = .free) :
    SliceInv { s with
      table := yield c p s.table, handler := Function.update s.handler c false } := by
  have hrun := h.good.inv.runs hp
  have hs : Slices s.table (yield c p s.table) [p] := yield_slices
  have hpush := yield_enqueues (c := c) h.good.queues hrun
  have hinv := yield_inv h.good.inv hp.cpu fun c' => by rw [hlock]; simp
  refine h.of_table ⟨hinv, hpush.queues⟩ (h.queued_of_pushes hpush.toPushes hs) hs.runs
    fun c' x hc' hh' hx => ⟨by rw [hs.cpu]; exact hc', ?_⟩
  have hcc : c' ≠ c := by
    rintro rfl
    obtain rfl : p = x := Option.some.inj (hp.cpu.symm.trans hc')
    simp [yield, sched] at hx
  rw [Function.update_of_ne hcc]
  exact hh'

/-- A dispatch. -/
theorem dispatch (h : SliceInv s) (hh : s.handler c = false)
    (hstep : step (.dispatch c) s.table = some t') :
    SliceInv (Clocked.dispatched { s with table := t' } (.dispatch c)) := by
  obtain ⟨hnone, rfl | ⟨q, p, hd, hcpu, hpr, hx⟩⟩ := dispatch_slices h.good.queues hstep
  · simp only [Clocked.dispatched, hnone]
    exact h
  · have hgood := good_step h.good hstep
    have hp : t'.cpu c = some p := by rw [hcpu, Function.update_self]
    have hfull : (s.table.proc p).Full := h.queued q hd.level_lt p (by rw [hd.front]; simp)
    simp only [Clocked.dispatched, hp]
    refine ⟨hgood, fun q' hq' x hxm => ?_, fun x hr => ?_, fun x hr hz => ?_, fun x => ?_⟩
    · dsimp only at hxm ⊢
      have hne : x ≠ p := by
        rintro rfl
        have := (hgood.queues.level q' hq').state x hxm
        rw [hpr] at this
        cases this
      rw [hx x hne]
      refine h.queued q' hq' x ?_
      by_cases hqq : q' = q
      · subst hqq
        rw [hd.front]
        exact List.mem_cons_of_mem _ hxm
      · rwa [← hd.rest q' hq' hqq]
    · dsimp only at hr ⊢
      by_cases hne : x = p
      · subst hne
        rw [Function.update_self, Function.update_self, hpr]
        exact ⟨hfull, rfl⟩
      · rw [hx x hne] at hr ⊢
        rw [Function.update_of_ne hne, Function.update_of_ne hne]
        exact h.running x hr
    · dsimp only at hr hz ⊢
      by_cases hne : x = p
      · subst hne
        rw [hpr] at hz
        exact absurd (hfull.symm.trans hz) (Nat.ne_of_gt (slice_pos _))
      · rw [hx x hne] at hr hz
        obtain ⟨c', hc', hh'⟩ := h.expired x hr hz
        have hcc : c' ≠ c := by
          rintro rfl
          rw [hh] at hh'
          cases hh'
        refine ⟨c', ?_, hh'⟩
        rw [hcpu, Function.update_of_ne hcc]
        exact hc'
    · dsimp only
      by_cases hne : x = p
      · subst hne
        rw [Function.update_self]
        exact Nat.zero_le _
      · rw [Function.update_of_ne hne, Function.update_of_ne hne]
        exact h.spent x

/-- A step of the table that is no dispatch and no clock interrupt. -/
theorem other (h : SliceInv s) (hd : ∀ c, e ≠ .dispatch c) (ht : ∀ c, e ≠ .timer c)
    (hh : ∀ c, e.cpu = some c → s.handler c = false) (hstep : step e s.table = some t') :
    SliceInv { s with table := t' } := by
  have hgood := good_step h.good hstep
  obtain ⟨ps, hpush⟩ := h.pushes hd hstep
  by_cases hr : ∃ c, e = .schedReturn c
  · obtain ⟨c, rfl⟩ := hr
    cases step_moves hstep with
    | schedReturn hlock =>
      refine h.of_table hgood h.queued (fun x hx => ⟨hx, rfl, rfl⟩) fun c' x hc' hh' _ => ⟨?_, hh'⟩
      have hcc : c' ≠ c := by
        rintro rfl
        rw [hh c' rfl] at hh'
        cases hh'
      exact (Function.update_of_ne hcc _ _).trans hc'
    | assign he => cases he
  · rcases step_slices hd (not_exists.mp hr) ht hstep with ⟨ps', hs⟩ | ⟨c, p, np, hp, hcall, rfl⟩
    · exact h.of_table hgood (h.queued_of_pushes hpush hs) hs.runs fun c x hc hh' _ =>
        ⟨by rw [hs.cpu]; exact hc, hh'⟩
    · -- the slot that gets its first priority is an embryo: neither queued nor running
      have hnp := h.good.inv.embryo p np (congrArg Call.child hcall)
      have hne : np ≠ p := by
        rintro rfl
        rw [h.good.inv.runs hp] at hnp
        cases hnp
      have hs := setCall_slices (allocprocInit np s.table) p (.fork np)
      have hx : ∀ x, x ≠ np → (allocprocInit np s.table).proc x = s.table.proc x := fun x hxn =>
        Ptable.setProc_of_ne _ _ hxn
      have hemb : ((allocprocInit np s.table).proc np).state = .embryo := by
        rw [allocprocInit, Ptable.setProc_self, hnp]
      refine h.of_table hgood (fun q hq x hxm => ?_) (fun x hxr => ?_) fun c x hc hh' _ => ⟨hc, hh'⟩
      · obtain rfl : ps = [] := List.self_eq_append_right.mp hpush.log
        have hxs : x ≠ np := by
          rintro rfl
          have := (hgood.queues.level q hq).state x hxm
          rw [Ptable.setProc_of_ne _ _ hne, hemb] at this
          cases this
        rw [hpush.level q hq, List.filter_nil, List.append_nil] at hxm
        refine (hs.rest x).elim id fun hu => hu.full ?_
        rw [hx x hxs]
        exact h.queued q hq x hxm
      · obtain ⟨hr', hu⟩ := hs.runs x hxr
        have hxn : x ≠ np := by
          rintro rfl
          rw [hemb] at hr'
          cases hr'
        rw [hx x hxn] at hr' hu
        exact ⟨hr', hu⟩

end SliceInv

/-- **Every step keeps the invariant.** -/
theorem sliceInv_step {e : ClockEvent} {s s' : Clocked} (h : SliceInv s)
    (hstep : clockStep e s = some s') : SliceInv s' := by
  cases e with
  | tick c =>
    simp only [clockStep] at hstep
    split_ifs at hstep with hh
    obtain ⟨p, hp, hstep⟩ := Option.bind_eq_some_iff.mp hstep
    split_ifs at hstep
    obtain rfl := Option.some.inj hstep
    exact h.tick (Ptable.myproc_eq_some.mp hp) (by simpa using hh)
  | expire c =>
    simp only [clockStep] at hstep
    split_ifs at hstep with hg
    obtain ⟨p, hp, rfl⟩ := Option.map_eq_some_iff.mp hstep
    exact h.expire (Ptable.myproc_eq_some.mp hp) hg.2
  | other e =>
    by_cases ht : ∃ c, e = .timer c
    · obtain ⟨c, rfl⟩ := ht
      cases hstep
    · have ht : ∀ c, e ≠ .timer c := not_exists.mp ht
      rw [clockStep] at hstep
      · split_ifs at hstep with hh
        obtain ⟨t', hs, rfl⟩ := Option.map_eq_some_iff.mp hstep
        have hh : ∀ c, e.cpu = some c → s.handler c = false := by
          intro c hc
          simpa [hc] using hh
        by_cases hd : ∃ c, e = .dispatch c
        · obtain ⟨c, rfl⟩ := hd
          exact h.dispatch (hh c rfl) hs
        · have hd : ∀ c, e ≠ .dispatch c := not_exists.mp hd
          rw [Clocked.dispatched]
          · exact h.other hd ht hh hs
          · exact fun c hc => hd c hc
      · exact fun c hc => ht c hc

/-! ## The result -/

/-- Priorities, time pieces and ticks. -/
structure Sliced (s : Clocked) : Prop where
  priority : ∀ p, (s.table.proc p).priority < NPROCQ
  queued : ∀ q < NPROCQ, ∀ p ∈ s.table.level q, (s.table.proc p).state = .runnable →
    (s.table.proc p).timepiece = 2 ^ (NPROCQ - 1 - (s.table.proc p).priority)
  /-- Outside the timer handler. -/
  running : ∀ p, (s.table.proc p).state = .running →
    (∀ c, s.table.cpu c = some p → s.handler c = false) →
    1 ≤ (s.table.proc p).timepiece ∧
      (s.table.proc p).timepiece ≤ 2 ^ (NPROCQ - 1 - (s.table.proc p).priority)
  /-- The decrement of the next tick does not pass below 0. -/
  unwrapped : ∀ c p, s.table.Runs c p → s.handler c = false →
    (decrement (s.table.proc p)).timepiece + 1 = (s.table.proc p).timepiece
  /-- While a process runs its priority is the one it was dispatched at. -/
  level : ∀ p, (s.table.proc p).state = .running → s.level p = (s.table.proc p).priority
  ticks : ∀ p, s.ticks p ≤ 2 ^ (NPROCQ - 1 - s.level p)

/-- **Time slices are exact.** -/
theorem slices_exact {es : List ClockEvent} {s : Clocked} (h : run clockStep es clockBoot = some s) :
    Sliced s := by
  have hi : SliceInv s := run_inv (fun _ _ _ h hs => sliceInv_step h hs) clockBoot_inv h
  refine ⟨hi.good.queues.priority, fun q hq p hp _ => ?_, fun p hr hh => ⟨hi.pos hr hh, ?_⟩,
    fun c p hp hh => hi.decrement hp hh, fun p hr => (hi.running p hr).2, fun p => ?_⟩
  · rw [← slice_eq]
    exact hi.queued q hq p hp
  · rw [← slice_eq]
    exact hi.le_slice hr
  · rw [← slice_eq]
    exact hi.spent p

/-- Init gets the tick of its slice and yields; then it gets the two ticks of the next level. -/
theorem slices_exact_expired : ∃ s, run clockStep [.other .userinit, .other (.dispatch 0),
    .other (.resume 0), .tick 0, .expire 0, .other (.schedReturn 0), .other (.dispatch 0),
    .other (.resume 0), .tick 0, .tick 0] clockBoot = some s ∧ Sliced s := by
  obtain ⟨s, hs⟩ := Option.isSome_iff_exists.mp (show (run clockStep [.other .userinit,
    .other (.dispatch 0), .other (.resume 0), .tick 0, .expire 0, .other (.schedReturn 0),
    .other (.dispatch 0), .other (.resume 0), .tick 0, .tick 0] clockBoot).isSome = true by
      decide +kernel)
  exact ⟨s, hs, slices_exact hs⟩

end OsPlayground
