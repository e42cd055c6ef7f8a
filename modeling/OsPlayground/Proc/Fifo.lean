import OsPlayground.Proc.Inv

/-!
# The multi-level feedback queue as FIFO lists

* `KillsSleeper`: the one event that makes a process runnable without a push.
* **`step_enqueues`**, `step_killsSleeper`, **`step_dispatch`**: what each step does to the levels.
* `queues_step`, `queues_run`: the queue invariant of every reachable table.
* **`fifo_refinement`**: the levels of every reachable table are FIFO lists, and every step pushes
  at the back of the level of a priority or takes the front of the highest level that is not empty.
-/

namespace OsPlayground

open Lib

section Pieces

variable {t t' : Ptable} {c : ℕ} {p np : Slot}

theorem enqueues_of_eq (h : t.Queues) (hp : t'.proc = t.proc) (hq : t'.pqueue = t.pqueue)
    (hc : t'.count = t.count) (hl : t'.pushed = t.pushed) : ∃ ps, Enqueues t t' ps :=
  ⟨[], .of_eq h hp hq hc hl⟩

theorem sched_enqueues (h : t.Queues) (ctx : Context) : Enqueues t (sched c p ctx t) [] := by
  have h₁ : Enqueues t (t.setProc p fun r => { r with context := ctx }) [] :=
    .setProc_same h rfl rfl rfl
  exact h₁.trans (.of_eq h₁.queues rfl rfl rfl rfl)

theorem sleep_enqueues (h : t.Queues) (hp : (t.proc p).state = .running) (chan : Chan)
    (ctx : Context) : Enqueues t (sleep c p chan ctx t) [] := by
  have h₁ : Enqueues t (t.setProc p fun r => { r with chan := chan, state := .sleeping }) [] :=
    .setProc h (by rw [hp]; decide) (by simp) (h.priority p)
  exact h₁.trans (sched_enqueues h₁.queues ctx)

theorem yield_enqueues (h : t.Queues) (hp : (t.proc p).state = .running) :
    Enqueues t (yield c p t) [p] := by
  have hprio := h.priority p
  have h₁ : Enqueues t (qpush p ((t.setProc p fun r => { r with state := .runnable }).setProc p
      fun r => { r with priority := if 0 < r.priority then r.priority - 1 else r.priority })) [p] := by
    refine enqueue h (by rw [hp]; decide) (fun x hx => ?_) rfl rfl rfl (by simp) ?_
    · rw [Ptable.setProc_of_ne _ _ hx, Ptable.setProc_of_ne _ _ hx]
    · simp only [Ptable.setProc_self]
      split_ifs <;> omega
  exact h₁.trans (sched_enqueues h₁.queues _)

theorem waitLoop_enqueues (h : t.Queues) (hp : (t.proc p).state = .running) :
    ∃ ps, Enqueues t (waitLoop c p t).1 ps := by
  unfold waitLoop
  rcases hz : zombieChild p t with _ | z
  · dsimp only
    split_ifs
    · exact enqueues_of_eq h rfl rfl rfl rfl
    · exact ⟨_, sleep_enqueues h hp _ _⟩
  · have h₁ : Enqueues t (reap z t) [] :=
      .setProc h (by rw [(zombieChild_spec hz).2]; decide) (by simp) (h.priority z)
    exact ⟨_, h₁.trans (.of_eq h₁.queues rfl rfl rfl rfl)⟩

theorem resume_enqueues (h : t.Queues) (hp : (t.proc p).state = .running) :
    ∃ ps, Enqueues t (resume c p t) ps := by
  have h₁ : Enqueues t (t.setProc p fun r => { r with chan := .null }) [] :=
    .setProc_same h rfl rfl rfl
  unfold resume
  cases (t.proc p).context with
  | forkret => exact enqueues_of_eq h rfl rfl rfl rfl
  | yield => exact enqueues_of_eq h rfl rfl rfl rfl
  | sleep => exact ⟨_, h₁.trans (.of_eq h₁.queues rfl rfl rfl rfl)⟩
  | wait =>
    obtain ⟨ps, h₂⟩ := waitLoop_enqueues (c := c) h₁.queues
      (show ((t.setProc p fun r => { r with chan := .null }).proc p).state = .running by simp [hp])
    exact ⟨_, h₁.trans h₂⟩

theorem timer_enqueues (h : t.Queues) : ∃ ps, Enqueues t (timer c p t) ps := by
  have h₁ : Enqueues t (t.setProc p fun r =>
      { r with timepiece := (r.timepiece + (2 ^ 32 - 1)) % 2 ^ 32 }) [] :=
    .setProc_same h rfl rfl rfl
  unfold timer
  dsimp only
  split_ifs with hs
  · exact ⟨_, h₁.trans (yield_enqueues h₁.queues (by simp [hs]))⟩
  · exact ⟨_, h₁⟩
  · exact enqueues_of_eq h rfl rfl rfl rfl

theorem exit_enqueues (h : t.Queues) (hp : (t.proc p).state = .running) :
    ∃ ps, Enqueues t (exit c p t) ps := by
  obtain ⟨t₁, hw, he⟩ := exit_spec c p t
  obtain ⟨ps, h₁⟩ := hw.queues h
  have hp₁ : (t₁.proc p).state = .running :=
    ((hw.proc p).state_iff (by decide) (by decide)).mpr hp
  have h₂ : Enqueues t₁ (t₁.setProc p fun r => { r with state := .zombie, call := .none }) [] :=
    .setProc h₁.queues (by rw [hp₁]; decide) (by simp) (h₁.queues.priority p)
  rw [he]
  exact ⟨_, (h₁.trans h₂).trans (sched_enqueues h₂.queues _)⟩

theorem forkCommit_enqueues (h : t.Queues) (hnp : (t.proc np).state = .embryo) :
    Enqueues t (forkCommit np t) [np] := by
  have h₁ : Enqueues t (qpush np (t.setProc np fun r => { r with state := .runnable })) [np] := by
    refine enqueue h (by rw [hnp]; decide) (fun x hx => ?_) rfl rfl rfl (by simp) ?_
    · rw [Ptable.setProc_of_ne _ _ hx]
    · rw [Ptable.setProc_self]
      exact h.priority np
  have h₂ := Enqueues.setProc_same (p := np) (f := fun r => { r with
    sharedrec := fun i => if 1 ≤ i ∧ i < MAXSHAREDPG then false else r.sharedrec i })
    h₁.queues rfl rfl rfl
  exact h₁.trans h₂

theorem stage_enqueues (h : t.Queues) (hnp : (t.proc np).state = .embryo) {f : Proc → Proc}
    (hf : (f (t.proc np)).state ≠ .runnable) (hprio : (f (t.proc np)).priority < NPROCQ) (k : Call) :
    ∃ ps, Enqueues t ((t.setProc np f).setProc p fun r => { r with call := k }) ps := by
  have h₁ : Enqueues t (t.setProc np f) [] := .setProc h (by rw [hnp]; decide) hf hprio
  exact ⟨_, h₁.trans (.setProc_same h₁.queues rfl rfl rfl)⟩

end Pieces

/-! ## One step -/

/-- The event is a `kill` that hits a sleeping process. -/
def KillsSleeper (t : Ptable) (e : Event) : Prop :=
  ∃ pid p, e = .kill pid ∧ killed? pid t = some p ∧ (t.proc p).state = .sleeping

section Step

variable {t t' : Ptable} {e : Event}

/-- **Every other step pushes** what it makes runnable, each at the back of its level. -/
theorem step_enqueues (h : t.Inv) (hq : t.Queues) (he : ∀ c, e ≠ .dispatch c)
    (hk : ¬ KillsSleeper t e) (hstep : step e t = some t') : ∃ ps, Enqueues t t' ps := by
  cases step_moves hstep with
  | userinit hlock hinit halloc =>
    obtain ⟨hun, ht₁⟩ := allocproc_spec halloc
    subst ht₁
    refine ⟨_, enqueue hq (by rw [hun]; decide) (fun x hx => ?_) rfl rfl rfl (by simp) ?_⟩
    · simp only [allocprocInit, Ptable.setProc_of_ne _ _ hx]
    · simp only [allocprocInit, Ptable.setProc_self]
      decide
  | idle hlock hcpu hs => exact absurd rfl (he _)
  | dispatch hlock hcpu hs => exact absurd rfl (he _)
  | resume hlock hcpu =>
    exact resume_enqueues hq (h.running _ _ hcpu (by rw [hlock]; simp))
  | schedReturn hlock => exact enqueues_of_eq hq rfl rfl rfl rfl
  | timer hlock hp => exact timer_enqueues hq
  | assign he hp hcall =>
    obtain ⟨k, s, o, w, hf⟩ := assigned_spec he (t.proc _)
    exact ⟨[], .setProc_same hq (by rw [hf]) (by rw [hf]) (by rw [hf])⟩
  | yield hlock hp => exact ⟨_, yield_enqueues hq (h.runs hp)⟩
  | sleep hlock hp => exact ⟨_, sleep_enqueues hq (h.runs hp) _ _⟩
  | wakeup hlock => exact (wakeup1_wakes _ t).queues hq
  | @kill pid hlock =>
    rcases hkp : killed? pid t with _ | p
    · rw [kill, hkp]
      exact enqueues_of_eq hq rfl rfl rfl rfl
    · have hs : (t.proc p).state ≠ .sleeping := fun hs => hk ⟨pid, p, rfl, hkp, hs⟩
      rw [kill, hkp]
      dsimp only
      exact ⟨[], .setProc_same hq rfl (if_neg hs) rfl⟩
  | allocFail hlock => exact enqueues_of_eq hq rfl rfl rfl rfl
  | @alloc c p np t₁ hlock hp hcall halloc =>
    obtain ⟨hun, ht₁⟩ := allocproc_spec halloc
    have h₁ : Enqueues t (t.setProc np fun r => { r with state := .embryo, pid := t.nextpid }) [] :=
      .setProc hq (by rw [hun]; decide) (by simp) (hq.priority np)
    have h₂ : Enqueues t t₁ [] := by
      rw [ht₁]
      exact h₁.trans (.of_eq h₁.queues rfl rfl rfl rfl)
    exact ⟨_, h₂.trans (.setProc_same h₂.queues rfl rfl rfl)⟩
  | allocInit hp hcall =>
    exact stage_enqueues hq (h.embryo _ _ (congrArg Call.child hcall))
      (by rw [h.embryo _ _ (congrArg Call.child hcall)]; decide) (Nat.lt_succ_self _) _
  | allocFree hp hcall =>
    exact stage_enqueues hq (h.embryo _ _ (congrArg Call.child hcall)) (by simp) (hq.priority _) _
  | forkCopy hp hcall =>
    exact stage_enqueues hq (h.embryo _ _ (congrArg Call.child hcall))
      (by rw [h.embryo _ _ (congrArg Call.child hcall)]; decide) (hq.priority _) _
  | forkFree hp hcall =>
    exact stage_enqueues hq (h.embryo _ _ (congrArg Call.child hcall)) (by simp) (hq.priority _) _
  | forkCommit hlock hp hcall =>
    have h₁ := forkCommit_enqueues hq (h.embryo _ _ (congrArg Call.child hcall))
    exact ⟨_, h₁.trans (.setProc_same h₁.queues rfl rfl rfl)⟩
  | exitFiles hp hcall hinit => exact ⟨[], .setProc_same hq rfl rfl rfl⟩
  | exit hlock hp hcall => exact exit_enqueues hq (h.runs hp)
  | wait hlock hp hcall => exact waitLoop_enqueues hq (h.runs hp)

/-- A `kill` that hits a sleeping process pushes nothing. -/
theorem step_killsSleeper (hq : t.Queues) (hk : KillsSleeper t e) (hstep : step e t = some t') :
    Pushes t t' [] := by
  obtain ⟨pid, p, rfl, hkp, hs⟩ := hk
  cases step_moves hstep with
  | kill hlock =>
    rw [kill, hkp]
    dsimp only
    have hne : ∀ x, (t.proc x).state = .runnable → x ≠ p := by
      rintro x hx rfl
      rw [hs] at hx
      cases hx
    refine .frame hq rfl rfl rfl (fun x hx => ?_) (fun x => ?_)
    · rw [Ptable.setProc_of_ne _ _ (hne x hx)]
      exact ⟨rfl, rfl, rfl⟩
    · by_cases hx : x = p
      · subst hx
        rw [Ptable.setProc_self]
        exact hq.priority x
      · rw [Ptable.setProc_of_ne _ _ hx]
        exact hq.priority x
  | assign he => cases he

/-- **A dispatch** takes the front of the highest level that is not empty, if any. -/
theorem step_dispatch {c : ℕ} (hq : t.Queues) (hstep : step (.dispatch c) t = some t') :
    ((∀ q < NPROCQ, t.level q = []) ∧ t' = t) ∨
      ∃ q p, Dequeues t t' q p ∧ (t'.proc p).state = .running ∧ t'.cpu c = some p ∧
        ∀ x, x ≠ p → t'.proc x = t.proc x := by
  have hcases := schedule_cases hq
  cases step_moves hstep with
  | idle hlock hcpu hs =>
    left
    rcases hcases with ⟨he, hsch⟩ | ⟨q, -, p, l, -, -, hsch⟩
    · rw [hsch]
      exact ⟨he, rfl⟩
    · rw [hsch] at hs
      cases hs
  | dispatch hlock hcpu hs =>
    right
    rcases hcases with ⟨-, hsch⟩ | ⟨q, hqn, p, l, hl, hhi, hsch⟩
    · rw [hsch] at hs
      cases hs
    · rw [hsch] at hs ⊢
      obtain rfl := Option.some.inj hs
      refine ⟨q, p, dequeue hq hqn hl hhi (fun x hx => ?_) rfl rfl rfl ?_, ?_, ?_, fun x hx => ?_⟩
      · dsimp only
        rw [Ptable.setProc_of_ne _ _ hx]
        rfl
      · dsimp only
        rw [Ptable.setProc_self]
        exact hq.priority p
      · simp
      · simp
      · dsimp only
        rw [Ptable.setProc_of_ne _ _ hx]
        rfl
  | assign he => cases he

/-! ## Runs -/

theorem boot_queues : boot.Queues := by
  refine ⟨fun q _ => ?_, fun _ => by simp [boot]⟩
  have hl : boot.level q = [] := rfl
  rw [hl]
  exact ⟨.empty _ _ _, (by simp), (by simp), List.Pairwise.nil, (by simp)⟩

/-- **Every step keeps the queue invariant.** -/
theorem queues_step (h : t.Inv) (hq : t.Queues) (hstep : step e t = some t') : t'.Queues := by
  by_cases hd : ∃ c, e = .dispatch c
  · obtain ⟨c, rfl⟩ := hd
    rcases step_dispatch hq hstep with ⟨-, rfl⟩ | ⟨q, p, hdeq, -⟩
    · exact hq
    · exact hdeq.queues
  · by_cases hk : KillsSleeper t e
    · exact (step_killsSleeper hq hk hstep).queues
    · obtain ⟨ps, hps⟩ := step_enqueues h hq (not_exists.mp hd) hk hstep
      exact hps.queues

/-- Both invariants. -/
structure Ptable.Good (t : Ptable) : Prop where
  inv : t.Inv
  queues : t.Queues

theorem boot_good : boot.Good := ⟨Ptable.boot_inv, boot_queues⟩

theorem good_step (h : t.Good) (hstep : step e t = some t') : t'.Good :=
  ⟨inv_step h.inv hstep, queues_step h.inv h.queues hstep⟩

theorem good_run {es : List Event} (h : run step es boot = some t) : t.Good :=
  run_inv (fun _ _ _ h hs => good_step h hs) boot_good h

end Step

/-! ## The refinement -/

/-- The FIFO lists that the queues stand for, by level. -/
abbrev Fifos := ℕ → List Slot

/-- Push `p` at the back of level `q`. -/
def Fifos.push (q : ℕ) (p : Slot) (l : Fifos) : Fifos := Function.update l q (l q ++ [p])

/-- `l'` is `l` without the front `p` of level `q`, the highest that is not empty. -/
structure Fifos.Pop (l l' : Fifos) (q : ℕ) (p : Slot) : Prop where
  level_lt : q < NPROCQ
  front : l q = p :: l' q
  highest : ∀ q', q < q' → q' < NPROCQ → l q' = []
  rest : ∀ q' < NPROCQ, q' ≠ q → l' q' = l q'

/-- **The queues of `t` refine FIFO lists.** -/
structure Ptable.RefinesFifos (t : Ptable) : Prop where
  /-- Head, last, count and links represent a list of distinct processes of the level's priority. -/
  represents : ∀ q < NPROCQ,
    IsQueue t.links (t.pqueue q).head (t.pqueue q).last (t.count q) (t.level q) ∧
      ∀ p ∈ t.level q, (t.proc p).priority = q
  last : ∀ q < NPROCQ, 0 < t.count q →
    (fun o : Option Slot => o.bind t.links)^[t.count q - 1] (t.pqueue q).head = (t.pqueue q).last
  /-- `qpush` after its caller made the process runnable: `r` is what the caller left in it. -/
  push : ∀ p r, (t.proc p).state ≠ .runnable → r.state = .runnable → r.priority < NPROCQ →
    ∀ q < NPROCQ, (qpush p (t.setProc p fun _ => r)).level q = Fifos.push r.priority p t.level q
  /-- A pass of `scheduler` that finds nothing. -/
  none : ∀ t', schedule t = (t', none) → (∀ q < NPROCQ, t.level q = []) ∧ t' = t
  /-- A pass of `scheduler` that chooses `p`: of the highest priority that is queued, and waiting
  longer than the others of its level. -/
  pop : ∀ t' p, schedule t = (t', some p) → ∃ q, Fifos.Pop t.level t'.level q p ∧
    (∀ q' < NPROCQ, ∀ p' ∈ t.level q', (t.proc p').priority ≤ (t.proc p).priority) ∧
    ∀ p' ∈ t'.level q, Waited t.pushed p p'
  /-- A dispatch is such a pass. -/
  dispatch : ∀ c t', step (.dispatch c) t = some t' →
    ((∀ q < NPROCQ, t.level q = []) ∧ t' = t) ∨
      ∃ q p, Fifos.Pop t.level t'.level q p ∧ t'.cpu c = some p
  /-- Every other step only pushes, at the back of the levels of the processes' priorities. -/
  other : ∀ e t', (∀ c, e ≠ .dispatch c) → step e t = some t' →
    ∃ ps, t'.pushed = t.pushed ++ ps ∧
      ∀ q < NPROCQ, t'.level q = t.level q ++ ps.filter fun p => (t'.proc p).priority = q

section Refinement

variable {t t' : Ptable} {p : Slot}

theorem Dequeues.pop {q : ℕ} (h : Dequeues t t' q p) : Fifos.Pop t.level t'.level q p :=
  ⟨h.level_lt, h.front, h.highest, h.rest⟩

theorem Ptable.Queues.priority_le {q : ℕ} {l : List Slot} (h : t.Queues) (hq : q < NPROCQ)
    (hl : t.level q = p :: l) (hhi : ∀ q', q < q' → q' < NPROCQ → t.level q' = []) :
    ∀ q' < NPROCQ, ∀ p' ∈ t.level q', (t.proc p').priority ≤ (t.proc p).priority := by
  intro q' hq' p' hp'
  rw [(h.level q' hq').priority p' hp', (h.level q hq).priority p (by simp [hl])]
  by_contra hlt
  rw [hhi q' (not_le.mp hlt) hq'] at hp'
  cases hp'

theorem push_level (h : t.Queues) {r : Proc} (hp : (t.proc p).state ≠ .runnable)
    (hr : r.state = .runnable) (hprio : r.priority < NPROCQ) {q : ℕ} (hq : q < NPROCQ) :
    (qpush p (t.setProc p fun _ => r)).level q = Fifos.push r.priority p t.level q := by
  have he : Enqueues t (qpush p (t.setProc p fun _ => r)) [p] :=
    enqueue h hp (fun x hx => Ptable.setProc_of_ne _ _ hx) rfl rfl rfl (by simp [hr])
      (by simp [hprio])
  rw [he.level q hq, Fifos.push]
  by_cases hqp : q = r.priority
  · subst hqp
    simp
  · rw [Function.update_of_ne hqp]
    simp [Ne.symm hqp]

theorem pop_schedule (h : t.Queues) (hs : schedule t = (t', some p)) :
    ∃ q, Fifos.Pop t.level t'.level q p ∧
      (∀ q' < NPROCQ, ∀ p' ∈ t.level q', (t.proc p').priority ≤ (t.proc p).priority) ∧
      ∀ p' ∈ t'.level q, Waited t.pushed p p' := by
  rcases schedule_cases h with ⟨-, hn⟩ | ⟨q, hq, p₁, l, hl, hhi, hsch⟩
  · rw [hn] at hs
    cases hs
  · rw [hsch] at hs
    obtain ⟨rfl, hp⟩ := Prod.mk.inj hs
    obtain rfl := Option.some.inj hp
    have hd : Dequeues t (popHead q t) q p₁ :=
      dequeue h hq hl hhi (fun _ _ => rfl) rfl rfl rfl (h.priority p₁)
    refine ⟨q, hd.pop, h.priority_le hq hl hhi, fun p' hp' => ?_⟩
    have horder := (h.level q hq).order
    rw [hd.front, List.pairwise_cons] at horder
    exact horder.1 p' hp'

/-- **The run queue refines FIFO lists**, in every reachable table. -/
theorem fifo_refinement {es : List Event} (h : run step es boot = some t) : t.RefinesFifos := by
  have hg := good_run h
  have hq := hg.queues
  refine ⟨fun q hqn => ⟨(hq.level q hqn).queue, (hq.level q hqn).priority⟩,
    fun q hqn hc => (hq.level q hqn).queue.last_of_iterate hc,
    fun p r hp hr hprio q hqn => push_level hq hp hr hprio hqn, fun t' hs => ?_,
    fun t' p hs => pop_schedule hq hs, fun c t' hs => ?_, fun e t' he hs => ?_⟩
  · rcases schedule_cases hq with ⟨hall, hn⟩ | ⟨q, _, p, l, _, _, hn⟩
    · rw [hn] at hs
      exact ⟨hall, (Prod.mk.inj hs).1.symm⟩
    · rw [hn] at hs
      cases hs
  · rcases step_dispatch hq hs with hn | ⟨q, p, hd, -, hc, -⟩
    · exact .inl hn
    · exact .inr ⟨q, p, hd.pop, hc⟩
  · by_cases hk : KillsSleeper t e
    · have hp := step_killsSleeper hq hk hs
      exact ⟨[], hp.log, hp.level⟩
    · obtain ⟨ps, hps⟩ := step_enqueues hg.inv hq he hk hs
      exact ⟨ps, hps.log, hps.level⟩

/-- A run with two processes on two levels, after which the refinement applies. -/
theorem fifo_refinement_forked : ∃ t, run step [.userinit, .dispatch 0, .resume 0, .allocproc 0,
    .allocprocInit 0 true, .forkCopy 0 true, .forkCommit 0, .yield 0, .schedReturn 0] boot = some t ∧
      t.RefinesFifos := by
  obtain ⟨t, ht⟩ := Option.isSome_iff_exists.mp (show (run step [.userinit, .dispatch 0, .resume 0,
    .allocproc 0, .allocprocInit 0 true, .forkCopy 0 true, .forkCommit 0, .yield 0,
    .schedReturn 0] boot).isSome = true by decide +kernel)
  exact ⟨t, ht, fifo_refinement ht⟩

end Refinement

end OsPlayground
