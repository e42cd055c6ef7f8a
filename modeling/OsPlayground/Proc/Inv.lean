import OsPlayground.Proc.Moves

/-!
# Who runs what

* `Proc.Woken`, `Wakes`: what `wakeup1` and the loop of `exit` do to the table; `wakeup1_wakes`,
  `reparent_wakes`.
* `Ptable.Inv`: a CPU runs a running process and no two run the same; the slot that a `fork` fills
  is an embryo, and no two fill the same; a process that is not live is in no system call.
* **`inv_step`**: every step keeps it.
-/

namespace OsPlayground

/-! ## Waking up -/

/-- `r'` is `r` after some pushes: it may have been woken, which may change its priority, and
reparented. -/
structure Proc.Woken (r r' : Proc) : Prop where
  eq : r' = { r with
    state := r'.state, parent := r'.parent, next := r'.next, priority := r'.priority,
    timepiece := r'.timepiece }
  state : r'.state = r.state ∧ r'.priority = r.priority ∨
    r.state = .sleeping ∧ r'.state = .runnable

namespace Proc.Woken

variable {r r' r'' : Proc}

theorem refl (r : Proc) : Woken r r := ⟨rfl, .inl ⟨rfl, rfl⟩⟩

theorem trans (h : Woken r r') (h' : Woken r' r'') : Woken r r'' := by
  refine ⟨by rw [h'.eq, h.eq], ?_⟩
  rcases h.state with ⟨hs, hp⟩ | ⟨hs, hs₁⟩ <;> rcases h'.state with ⟨hs', hp'⟩ | ⟨hs', hs₂⟩
  · exact .inl ⟨hs'.trans hs, hp'.trans hp⟩
  · exact .inr ⟨hs ▸ hs', hs₂⟩
  · exact .inr ⟨hs, hs'.trans hs₁⟩
  · exact .inr ⟨hs, hs₂⟩

theorem of_relinked (h : Relinked r r') : Woken r r' := by
  unfold Relinked at h
  rw [h]
  exact ⟨rfl, .inl ⟨rfl, rfl⟩⟩

theorem state_iff (h : Woken r r') {s : ProcState} (hs : s ≠ .sleeping) (hs' : s ≠ .runnable) :
    r'.state = s ↔ r.state = s := by
  rcases h.state with ⟨h, -⟩ | ⟨h, h'⟩
  · rw [h]
  · rw [h, h']
    exact ⟨fun h => absurd h.symm hs', fun h => absurd h.symm hs⟩

theorem call_eq (h : Woken r r') : r'.call = r.call := by rw [h.eq]

end Proc.Woken

/-- `t'` is `t` after some processes were woken and pushed. -/
structure Wakes (t t' : Ptable) : Prop where
  proc : ∀ x, Proc.Woken (t.proc x) (t'.proc x)
  lock : t'.lock = t.lock
  cpu : t'.cpu = t.cpu
  initproc : t'.initproc = t.initproc
  queues : t.Queues → ∃ ps, Enqueues t t' ps

namespace Wakes

variable {t t' t'' : Ptable}

theorem refl (t : Ptable) : Wakes t t :=
  ⟨fun _ => .refl _, rfl, rfl, rfl, fun h => ⟨[], .of_eq h rfl rfl rfl rfl⟩⟩

theorem trans (h : Wakes t t') (h' : Wakes t' t'') : Wakes t t'' := by
  refine ⟨fun x => (h.proc x).trans (h'.proc x), h'.lock.trans h.lock, h'.cpu.trans h.cpu,
    h'.initproc.trans h.initproc, fun hq => ?_⟩
  obtain ⟨ps, hps⟩ := h.queues hq
  obtain ⟨ps', hps'⟩ := h'.queues hps.queues
  exact ⟨_, hps.trans hps'⟩

theorem foldl {f : Ptable → Slot → Ptable} (hf : ∀ t p, Wakes t (f t p)) (l : List Slot)
    (t : Ptable) : Wakes t (l.foldl f t) :=
  List.foldlRecOn l f (refl t) fun t' h p _ => h.trans (hf t' p)

end Wakes

theorem wakeOne_wakes (chan : Chan) (t : Ptable) (p : Slot) : Wakes t (wakeOne chan t p) := by
  unfold wakeOne
  split_ifs with hp
  · have hother := qpush_other p (((t.setProc p fun r => { r with state := .runnable }).setProc p
      fun r => { r with priority := if r.priority < NPROCQ - 1 then r.priority + 1
        else r.priority }))
    refine ⟨fun x => ?_, hother.1, hother.2.1, hother.2.2.2.1, fun hq => ⟨[p], ?_⟩⟩
    · refine .trans ?_ (.of_relinked (qpush_relinked p x _))
      by_cases hx : x = p
      · subst hx
        simp only [Ptable.setProc_self]
        exact ⟨rfl, .inr ⟨hp.1, rfl⟩⟩
      · rw [Ptable.setProc_of_ne _ _ hx, Ptable.setProc_of_ne _ _ hx]
        exact .refl _
    · have hprio := hq.priority p
      refine enqueue hq (by rw [hp.1]; decide) (fun x hx => ?_) rfl rfl rfl (by simp) ?_
      · rw [Ptable.setProc_of_ne _ _ hx, Ptable.setProc_of_ne _ _ hx]
      · simp only [Ptable.setProc_self]
        split_ifs <;> omega
  · exact .refl t

theorem wakeup1_wakes (chan : Chan) (t : Ptable) : Wakes t (wakeup1 chan t) :=
  Wakes.foldl (wakeOne_wakes chan) slots t

theorem setParent_wakes (t : Ptable) (p : Slot) (o : Option Slot) :
    Wakes t (t.setProc p fun r => { r with parent := o }) := by
  refine ⟨fun x => ?_, rfl, rfl, rfl, fun hq => ⟨[], .setProc_same hq rfl rfl rfl⟩⟩
  by_cases hx : x = p
  · subst hx
    rw [Ptable.setProc_self]
    exact ⟨rfl, .inl ⟨rfl, rfl⟩⟩
  · rw [Ptable.setProc_of_ne _ _ hx]
    exact .refl _

theorem setRunnable_woken (t : Ptable) (p x : Slot) :
    Proc.Woken (t.proc x) ((t.setProc p fun r => { r with
      state := if r.state = .sleeping then .runnable else r.state }).proc x) := by
  by_cases hx : x = p
  · subst hx
    rw [Ptable.setProc_self]
    refine ⟨rfl, ?_⟩
    by_cases hs : (t.proc x).state = .sleeping
    · exact .inr ⟨hs, if_pos hs⟩
    · exact .inl ⟨if_neg hs, rfl⟩
  · rw [Ptable.setProc_of_ne _ _ hx]
    exact .refl _

theorem reparentOne_wakes (cur : Slot) (t : Ptable) (p : Slot) : Wakes t (reparentOne cur t p) := by
  unfold reparentOne
  dsimp only
  split_ifs
  · exact (setParent_wakes t p _).trans (wakeup1_wakes _ _)
  · exact setParent_wakes t p _
  · exact .refl t

theorem reparent_wakes (cur : Slot) (chan : Chan) (t : Ptable) :
    Wakes t (slots.foldl (reparentOne cur) (wakeup1 chan t)) :=
  (wakeup1_wakes chan t).trans (Wakes.foldl (reparentOne_wakes cur) slots _)

/-! ## The invariant -/

/-- The slot that a `fork` in progress fills. -/
def Call.child : Call → Option Slot
  | .allocproc np => some np
  | .fork np => some np
  | .forked np => some np
  | .none => Option.none
  | .exit => Option.none

namespace Ptable

/-- The invariant of states, CPUs and stages of calls. -/
structure Inv (t : Ptable) : Prop where
  running : ∀ c p, t.cpu c = some p → t.lock ≠ .scheduler c → (t.proc p).state = .running
  inj : ∀ c c' p, t.cpu c = some p → t.cpu c' = some p → c = c'
  embryo : ∀ p np, (t.proc p).call.child = some np → (t.proc np).state = .embryo
  unique : ∀ p p' np, (t.proc p).call.child = some np → (t.proc p').call.child = some np → p = p'
  idle : ∀ p, (t.proc p).state = .unused ∨ (t.proc p).state = .embryo ∨
    (t.proc p).state = .zombie → (t.proc p).call = .none

variable {t t' : Ptable} {c : ℕ} {p np : Slot}

theorem Inv.runs (h : t.Inv) (hp : t.Runs c p) : (t.proc p).state = .running :=
  h.running c p hp.cpu hp.not_scheduler

theorem boot_inv : boot.Inv := by
  refine ⟨?_, ?_, ?_, ?_, fun _ _ => rfl⟩
  · intro c p h
    cases h
  · intro c c' p h
    cases h
  · intro p np h
    cases h
  · intro p p' np h
    cases h

theorem Inv.woken (h : t.Inv) (hw : ∀ x, Proc.Woken (t.proc x) (t'.proc x))
    (hcpu : t'.cpu = t.cpu) (hl : t'.lock = t.lock) : t'.Inv := by
  refine ⟨fun c p hc hl' => ?_, by rw [hcpu]; exact h.inj, fun p np hnp => ?_,
    fun p p' np hp hp' => ?_, fun p hp => ?_⟩
  · rw [(hw p).state_iff (by decide) (by decide)]
    exact h.running c p (hcpu ▸ hc) (hl ▸ hl')
  · rw [(hw p).call_eq] at hnp
    rw [(hw np).state_iff (by decide) (by decide)]
    exact h.embryo p np hnp
  · rw [(hw p).call_eq] at hp
    rw [(hw p').call_eq] at hp'
    exact h.unique p p' np hp hp'
  · rw [(hw p).state_iff (by decide) (by decide), (hw p).state_iff (by decide) (by decide),
      (hw p).state_iff (by decide) (by decide)] at hp
    rw [(hw p).call_eq]
    exact h.idle p hp

theorem Inv.wakes (h : t.Inv) (hw : Wakes t t') : t'.Inv := h.woken hw.proc hw.cpu hw.lock

/-- An assignment that keeps the state and the slot that is filled. -/
theorem Inv.setProc (h : t.Inv) {f : Proc → Proc} (hs : (f (t.proc p)).state = (t.proc p).state)
    (hc : (f (t.proc p)).call.child = (t.proc p).call.child)
    (hi : (t.proc p).state = .running ∨ (f (t.proc p)).call = (t.proc p).call) :
    (t.setProc p f).Inv := by
  have hx : ∀ x, ((t.setProc p f).proc x).state = (t.proc x).state ∧
      ((t.setProc p f).proc x).call.child = (t.proc x).call.child := by
    intro x
    by_cases hx : x = p
    · subst hx
      rw [setProc_self]
      exact ⟨hs, hc⟩
    · rw [setProc_of_ne _ _ hx]
      exact ⟨rfl, rfl⟩
  refine ⟨fun c x => ?_, h.inj, fun x np => ?_, fun x x' np => ?_, fun x hxs => ?_⟩
  · rw [(hx x).1]
    exact h.running c x
  · rw [(hx x).2, (hx np).1]
    exact h.embryo x np
  · rw [(hx x).2, (hx x').2]
    exact h.unique x x' np
  · rw [(hx x).1] at hxs
    by_cases hxp : x = p
    · subst hxp
      rcases hi with hi | hi
      · simp [hi] at hxs
      · rw [setProc_self, hi]
        exact h.idle x hxs
    · rw [setProc_of_ne _ _ hxp]
      exact h.idle x hxs

/-- The state and the call of `x` are the same in both tables. -/
def Same (t t' : Ptable) (x : Slot) : Prop :=
  (t'.proc x).state = (t.proc x).state ∧ (t'.proc x).call = (t.proc x).call

theorem Inv.unlock (h : t.Inv) (hl : ∀ c, t.lock ≠ .scheduler c) (hx : ∀ x, t.Same t' x)
    (hcpu : t'.cpu = t.cpu) : t'.Inv := by
  refine ⟨fun c x hc _ => ?_, by rw [hcpu]; exact h.inj, fun x np => ?_, fun x x' np => ?_,
    fun x => ?_⟩
  · rw [(hx x).1]
    exact h.running c x (hcpu ▸ hc) (hl c)
  · rw [(hx x).2, (hx np).1]
    exact h.embryo x np
  · rw [(hx x).2, (hx x').2]
    exact h.unique x x' np
  · rw [(hx x).1, (hx x).2]
    exact h.idle x

theorem Inv.schedReturn (h : t.Inv) (hl : t.lock = .scheduler c) :
    Inv { t with cpu := Function.update t.cpu c none, lock := .free } := by
  refine ⟨fun c' p hc _ => ?_, fun c' c'' p hc hc' => ?_, h.embryo, h.unique, h.idle⟩
  · by_cases hcc : c' = c
    · subst hcc
      simp at hc
    · simp only [Function.update_of_ne hcc] at hc
      refine h.running c' p hc ?_
      rw [hl]
      simpa using Ne.symm hcc
  · by_cases hcc : c' = c
    · subst hcc
      simp at hc
    · by_cases hcc' : c'' = c
      · subst hcc'
        simp at hc'
      · simp only [Function.update_of_ne hcc] at hc
        simp only [Function.update_of_ne hcc'] at hc'
        exact h.inj c' c'' p hc hc'

/-- The process `p` switches back to the scheduler of its CPU. -/
theorem Inv.leave (h : t.Inv) (hp : t.cpu c = some p) (hl : ∀ c', t.lock ≠ .scheduler c')
    (hx : ∀ x, x ≠ p → t.Same t' x)
    (hs : (t'.proc p).call = (t.proc p).call ∧
        ((t'.proc p).state = .sleeping ∨ (t'.proc p).state = .runnable) ∨
      (t'.proc p).call = .none)
    (hcpu : t'.cpu = t.cpu) (hl' : t'.lock = .scheduler c) : t'.Inv := by
  have hrun : (t.proc p).state = .running := h.running c p hp (hl c)
  have hcall : ∀ x np, (t'.proc x).call.child = some np → (t.proc x).call.child = some np := by
    intro x np hnp
    by_cases hxp : x = p
    · subst hxp
      rcases hs with ⟨hc, -⟩ | hc
      · rwa [hc] at hnp
      · rw [hc] at hnp
        cases hnp
    · rwa [(hx x hxp).2] at hnp
  refine ⟨fun c' x hc hlx => ?_, by rw [hcpu]; exact h.inj, fun x np hnp => ?_,
    fun x x' np hnp hnp' => h.unique x x' np (hcall x np hnp) (hcall x' np hnp'), fun x hxs => ?_⟩
  · have hxp : x ≠ p := by
      rintro rfl
      obtain rfl := h.inj c' c x (hcpu ▸ hc) hp
      exact hlx hl'
    rw [(hx x hxp).1]
    exact h.running c' x (hcpu ▸ hc) (hl c')
  · have hne := h.embryo x np (hcall x np hnp)
    have hnpp : np ≠ p := by
      rintro rfl
      rw [hrun] at hne
      cases hne
    rw [(hx np hnpp).1]
    exact hne
  · by_cases hxp : x = p
    · subst hxp
      rcases hs with ⟨-, hst⟩ | hc
      · rcases hst with hst | hst <;> simp [hst] at hxs
      · exact hc
    · rw [(hx x hxp).1] at hxs
      rw [(hx x hxp).2]
      exact h.idle x hxs

/-- A runnable process is switched into. -/
theorem Inv.dispatch (h : t.Inv) (hl : t.lock = .free) (hc : t.cpu c = none)
    (hp : (t.proc p).state = .runnable) (hx : ∀ x, x ≠ p → t.Same t' x)
    (hs : (t'.proc p).state = .running) (hcall : (t'.proc p).call = (t.proc p).call)
    (hcpu : t'.cpu = Function.update t.cpu c (some p)) (hl' : t'.lock = .process c) : t'.Inv := by
  have hnone : ∀ c', t.cpu c' ≠ some p := by
    intro c' hc'
    have := h.running c' p hc' (by rw [hl]; simp)
    rw [hp] at this
    cases this
  have hcalls : ∀ x, (t'.proc x).call = (t.proc x).call := by
    intro x
    by_cases hxp : x = p
    · rw [hxp, hcall]
    · exact (hx x hxp).2
  refine ⟨fun c' x hcx _ => ?_, fun c' c'' x hc' hc'' => ?_, fun x np hnp => ?_,
    fun x x' np => by rw [hcalls, hcalls]; exact h.unique x x' np, fun x hxs => ?_⟩
  · by_cases hxp : x = p
    · rw [hxp, hs]
    · rw [(hx x hxp).1]
      rw [hcpu] at hcx
      have hcc : c' ≠ c := by
        rintro rfl
        rw [Function.update_self] at hcx
        exact hxp (Option.some.inj hcx).symm
      rw [Function.update_of_ne hcc] at hcx
      exact h.running c' x hcx (by rw [hl]; simp)
  · rw [hcpu] at hc' hc''
    by_cases hcc : c' = c <;> by_cases hcc' : c'' = c
    · rw [hcc, hcc']
    · subst hcc
      rw [Function.update_self] at hc'
      rw [Function.update_of_ne hcc', ← Option.some.inj hc'] at hc''
      exact absurd hc'' (hnone c'')
    · subst hcc'
      rw [Function.update_self] at hc''
      rw [Function.update_of_ne hcc, ← Option.some.inj hc''] at hc'
      exact absurd hc' (hnone c')
    · rw [Function.update_of_ne hcc] at hc'
      rw [Function.update_of_ne hcc'] at hc''
      exact h.inj c' c'' x hc' hc''
  · rw [hcalls] at hnp
    have hne := h.embryo x np hnp
    have hnpp : np ≠ p := by
      rintro rfl
      rw [hp] at hne
      cases hne
    rw [(hx np hnpp).1]
    exact hne
  · by_cases hxp : x = p
    · subst hxp
      simp [hs] at hxs
    · rw [(hx x hxp).1] at hxs
      rw [(hx x hxp).2]
      exact h.idle x hxs

/-- A slot that is unused or a zombie may take any state. -/
theorem Inv.setIdle (h : t.Inv) (hp : (t.proc p).state = .unused ∨ (t.proc p).state = .zombie)
    (hx : ∀ x, x ≠ p → t.Same t' x) (hcall : (t'.proc p).call = (t.proc p).call)
    (hcpu : t'.cpu = t.cpu) (hl : t'.lock = t.lock) : t'.Inv := by
  have hcalls : ∀ x, (t'.proc x).call = (t.proc x).call := by
    intro x
    by_cases hxp : x = p
    · rw [hxp, hcall]
    · exact (hx x hxp).2
  refine ⟨fun c x hc hlx => ?_, by rw [hcpu]; exact h.inj, fun x np hnp => ?_,
    fun x x' np => by rw [hcalls, hcalls]; exact h.unique x x' np, fun x hxs => ?_⟩
  · have hrun := h.running c x (hcpu ▸ hc) (hl ▸ hlx)
    have hxp : x ≠ p := by
      rintro rfl
      simp [hrun] at hp
    rw [(hx x hxp).1, hrun]
  · rw [hcalls] at hnp
    have he := h.embryo x np hnp
    have hne : np ≠ p := by
      rintro rfl
      simp [he] at hp
    rw [(hx np hne).1, he]
  · rw [hcalls]
    by_cases hxp : x = p
    · subst hxp
      exact h.idle x (hp.imp_right .inr)
    · rw [(hx x hxp).1] at hxs
      exact h.idle x hxs

/-- The running process `p` goes from one stage of a `fork` to the next. The slot `np` was in no
other hands; `t₁` is `t` after assignments to it. -/
theorem Inv.setCall {t₁ : Ptable} (h : t.Inv) (hp : (t.proc p).state = .running)
    (hnp : (t.proc np).state = .unused ∨ (t.proc np).state = .embryo)
    (howner : ∀ x, (t.proc x).call.child = some np → x = p)
    (hx₁ : ∀ x, x ≠ np → t.Same t₁ x) (hcall : (t₁.proc np).call = (t.proc np).call)
    (hcpu : t₁.cpu = t.cpu) (hl : t₁.lock = t.lock) {k : Call}
    (hk : ∀ y, k.child = some y → y = np ∧ (t₁.proc np).state = .embryo) :
    (t₁.setProc p fun r => { r with call := k }).Inv := by
  have hnpp : np ≠ p := by
    rintro rfl
    simp [hp] at hnp
  generalize ht' : (t₁.setProc p fun r => { r with call := k }) = t'
  have hx : ∀ x, x ≠ p → x ≠ np → t.Same t' x := by
    intro x hxp hxn
    rw [← ht', Same, setProc_of_ne _ _ hxp]
    exact hx₁ x hxn
  have hnp' : t'.proc np = t₁.proc np := by rw [← ht', setProc_of_ne _ _ hnpp]
  have hs : (t'.proc p).state = .running := by
    rw [← ht', setProc_self, ← hp]
    exact (hx₁ p hnpp.symm).1
  have hk' : (t'.proc p).call = k := by rw [← ht', setProc_self]
  have hcpu' : t'.cpu = t.cpu := by rw [← ht', setProc_cpu, hcpu]
  have hl' : t'.lock = t.lock := by rw [← ht', setProc_lock, hl]
  have hnone : (t'.proc np).call = .none := by
    rw [hnp', hcall]
    exact h.idle np (hnp.imp_right .inl)
  -- a process other than `p` fills some other slot, as before
  have hother : ∀ x y, x ≠ p → (t'.proc x).call.child = some y →
      (t.proc x).call.child = some y ∧ y ≠ np := by
    intro x y hxp hxy
    have hxn : x ≠ np := by
      rintro rfl
      rw [hnone] at hxy
      cases hxy
    rw [(hx x hxp hxn).2] at hxy
    refine ⟨hxy, ?_⟩
    rintro rfl
    exact hxp (howner x hxy)
  have hchild : ∀ y, (t'.proc p).call.child = some y →
      y = np ∧ (t'.proc np).state = .embryo := by
    rw [hk', hnp']
    exact hk
  refine ⟨fun c x hc hlx => ?_, by rw [hcpu']; exact h.inj, fun x y hxy => ?_,
    fun x x' y hxy hxy' => ?_, fun x hxs => ?_⟩
  · have hrun := h.running c x (hcpu' ▸ hc) (hl' ▸ hlx)
    by_cases hxp : x = p
    · rw [hxp, hs]
    · have hxn : x ≠ np := by
        rintro rfl
        simp [hrun] at hnp
      rw [(hx x hxp hxn).1, hrun]
  · by_cases hxp : x = p
    · subst hxp
      obtain ⟨rfl, he⟩ := hchild y hxy
      exact he
    · obtain ⟨hxy, hyn⟩ := hother x y hxp hxy
      have he := h.embryo x y hxy
      have hyp : y ≠ p := by
        rintro rfl
        simp [hp] at he
      rw [(hx y hyp hyn).1, he]
  · by_cases hxp : x = p <;> by_cases hxp' : x' = p
    · rw [hxp, hxp']
    · subst hxp
      exact absurd (hchild y hxy).1 (hother x' y hxp' hxy').2
    · subst hxp'
      exact absurd (hchild y hxy').1 (hother x y hxp hxy).2
    · exact h.unique x x' y (hother x y hxp hxy).1 (hother x' y hxp' hxy').1
  · by_cases hxp : x = p
    · subst hxp
      simp [hs] at hxs
    · by_cases hxn : x = np
      · rw [hxn, hnone]
      · rw [(hx x hxp hxn).1] at hxs
        rw [(hx x hxp hxn).2]
        exact h.idle x hxs

theorem same_setProc {f : Proc → Proc} {x : Slot} (hx : x ≠ p) : t.Same (t.setProc p f) x := by
  unfold Same
  rw [setProc_of_ne _ _ hx]
  exact ⟨rfl, rfl⟩

theorem Inv.stage (h : t.Inv) (hp : t.Runs c p) (hcall : (t.proc p).call.child = some np)
    {f : Proc → Proc} (hf : (f (t.proc np)).call = (t.proc np).call) {k : Call}
    (hk : ∀ y, k.child = some y → y = np ∧ (f (t.proc np)).state = .embryo) :
    ((t.setProc np f).setProc p fun r => { r with call := k }).Inv := by
  refine h.setCall (h.runs hp) (.inr (h.embryo p np hcall)) (fun x hx => h.unique x p np hx hcall)
    (fun x hx => Ptable.same_setProc hx) ?_ rfl rfl ?_
  · rw [setProc_self]
    exact hf
  · rw [setProc_self]
    exact hk

end Ptable

/-! ## Every step keeps it -/

section Step

variable {t t' : Ptable} {c : ℕ} {p np : Slot}

theorem discard_frame (q n : ℕ) (t : Ptable) : (discard q n t).proc = t.proc ∧
    (discard q n t).cpu = t.cpu ∧ (discard q n t).lock = t.lock ∧
    (discard q n t).initproc = t.initproc := by
  induction n generalizing t with
  | zero => exact ⟨rfl, rfl, rfl, rfl⟩
  | succ n ih =>
    unfold discard
    split_ifs
    · exact ih (popHead q t)
    · exact ⟨rfl, rfl, rfl, rfl⟩

theorem discard_front (q n : ℕ) (t : Ptable) (hn : t.count q ≤ n) :
    (discard q n t).count q = 0 ∨
      (discard q n t).stateOf ((discard q n t).pqueue q).head = .runnable := by
  induction n generalizing t with
  | zero => exact .inl (Nat.le_zero.mp hn)
  | succ n ih =>
    unfold discard
    split_ifs with hg
    · refine ih (popHead q t) ?_
      simp only [popHead, Function.update_self]
      omega
    · rw [not_and_or, not_not, not_lt, Nat.le_zero] at hg
      exact hg

theorem scheduleFrom_frame (n : ℕ) (t : Ptable) : (scheduleFrom n t).1.proc = t.proc ∧
    (scheduleFrom n t).1.cpu = t.cpu ∧ (scheduleFrom n t).1.lock = t.lock ∧
    (scheduleFrom n t).1.initproc = t.initproc := by
  induction n generalizing t with
  | zero => exact ⟨rfl, rfl, rfl, rfl⟩
  | succ n ih =>
    have hd := discard_frame n (t.count n) t
    unfold scheduleFrom
    dsimp only
    split_ifs
    · exact hd
    · have hi := ih (discard n (t.count n) t)
      exact ⟨hi.1.trans hd.1, hi.2.1.trans hd.2.1, hi.2.2.1.trans hd.2.2.1, hi.2.2.2.trans hd.2.2.2⟩

theorem schedule_frame (t : Ptable) : (schedule t).1.proc = t.proc ∧
    (schedule t).1.cpu = t.cpu ∧ (schedule t).1.lock = t.lock ∧
    (schedule t).1.initproc = t.initproc := scheduleFrom_frame NPROCQ t

theorem scheduleFrom_runnable {n : ℕ} (h : (scheduleFrom n t).2 = some p) :
    (t.proc p).state = .runnable := by
  induction n generalizing t with
  | zero => cases h
  | succ n ih =>
    have hd := discard_frame n (t.count n) t
    unfold scheduleFrom at h
    dsimp only at h
    split_ifs at h with hc
    · have hf := (discard_front n _ t le_rfl).resolve_left (Nat.ne_of_gt hc)
      dsimp only at h
      rw [h] at hf
      rw [← hd.1]
      exact hf
    · rw [← hd.1]
      exact ih h

theorem schedule_runnable (h : (schedule t).2 = some p) : (t.proc p).state = .runnable :=
  scheduleFrom_runnable h

theorem allocproc_spec {t₁ : Ptable} (h : allocproc t = some (np, t₁)) :
    (t.proc np).state = .unused ∧
      t₁ = { t.setProc np fun r => { r with state := .embryo, pid := t.nextpid } with
        nextpid := Int.bmod (t.nextpid + 1) (2 ^ 32) } := by
  unfold allocproc at h
  obtain ⟨p, hp, he⟩ := Option.map_eq_some_iff.mp h
  obtain ⟨rfl, rfl⟩ := Prod.mk.inj he
  exact ⟨by simpa using List.find?_some hp, rfl⟩

theorem kill_eq {pid : ℤ} (h : killed? pid t = some p) : (kill pid t).1 =
    (t.setProc p fun r => { r with killed := true }).setProc p fun r => { r with
      state := if r.state = .sleeping then .runnable else r.state } := by
  rw [kill, h, Ptable.setProc_setProc]

theorem kill_inv (h : t.Inv) (pid : ℤ) : (kill pid t).1.Inv := by
  rcases hk : killed? pid t with _ | p
  · rw [kill, hk]
    exact h
  · rw [kill_eq hk]
    have h' : (t.setProc p fun r => { r with killed := true }).Inv := h.setProc rfl rfl (.inr rfl)
    exact h'.woken (setRunnable_woken _ p) rfl rfl

theorem qpush_inv (h : t.Inv) : (qpush p t).Inv :=
  h.woken (fun x => .of_relinked (qpush_relinked p x t)) (qpush_other p t).2.1 (qpush_other p t).1

theorem sleep_inv (h : t.Inv) (hp : t.cpu c = some p) (hl : ∀ c', t.lock ≠ .scheduler c')
    (chan : Chan) (ctx : Context) : (sleep c p chan ctx t).Inv := by
  refine h.leave hp hl (fun x hx => ?_) (.inl ?_) rfl rfl
  · simp only [Ptable.Same, sleep, sched, Ptable.setProc_of_ne _ _ hx, and_self]
  · simp [sleep, sched]

theorem yield_inv (h : t.Inv) (hp : t.cpu c = some p) (hl : ∀ c', t.lock ≠ .scheduler c') :
    (yield c p t).Inv := by
  refine h.leave hp hl (fun x hx => ?_) (.inl ?_) (qpush_other p _).2.1 rfl
  · simp only [Ptable.Same, yield, sched, Ptable.setProc_of_ne _ _ hx, qpush_state, qpush_call,
      and_self]
  · simp only [yield, sched, Ptable.setProc_self, qpush_state, qpush_call, or_true, and_self]

theorem zombieChild_spec (h : zombieChild p t = some np) :
    (t.proc np).parent = some p ∧ (t.proc np).state = .zombie := by
  simpa using List.find?_some h

theorem waitLoop_inv (h : t.Inv) (hp : t.cpu c = some p) (hl : ∀ c', t.lock ≠ .scheduler c') :
    (waitLoop c p t).1.Inv := by
  unfold waitLoop
  rcases hz : zombieChild p t with _ | z
  · dsimp only
    split_ifs
    · exact h.unlock hl (fun x => ⟨rfl, rfl⟩) rfl
    · exact sleep_inv h hp hl _ _
  · have hreap : (reap z t).Inv :=
      h.setIdle (.inr (zombieChild_spec hz).2) (fun x hx => Ptable.same_setProc hx)
        (by rw [reap, Ptable.setProc_self]) rfl rfl
    exact hreap.unlock hl (fun x => ⟨rfl, rfl⟩) rfl

theorem resume_inv (h : t.Inv) (hp : t.cpu c = some p) (hl : ∀ c', t.lock ≠ .scheduler c') :
    (resume c p t).Inv := by
  have hchan : (t.setProc p fun r => { r with chan := .null }).Inv := h.setProc rfl rfl (.inr rfl)
  unfold resume
  cases (t.proc p).context with
  | forkret => exact h.unlock hl (fun x => ⟨rfl, rfl⟩) rfl
  | yield => exact h.unlock hl (fun x => ⟨rfl, rfl⟩) rfl
  | sleep => exact hchan.unlock hl (fun x => ⟨rfl, rfl⟩) rfl
  | wait => exact waitLoop_inv hchan hp hl

theorem timer_inv (h : t.Inv) (hp : t.cpu c = some p) (hl : ∀ c', t.lock ≠ .scheduler c') :
    (timer c p t).Inv := by
  have htime : (t.setProc p fun r =>
      { r with timepiece := (r.timepiece + (2 ^ 32 - 1)) % 2 ^ 32 }).Inv := h.setProc rfl rfl (.inr rfl)
  unfold timer
  dsimp only
  split_ifs
  · exact yield_inv htime hp hl
  · exact htime
  · exact h

theorem exit_spec (c : ℕ) (p : Slot) (t : Ptable) : ∃ t₁, Wakes t t₁ ∧
    exit c p t = sched c p (t₁.proc p).context
      (t₁.setProc p fun r => { r with state := .zombie, call := .none }) := by
  refine ⟨_, reparent_wakes p (Chan.ofProc (t.proc p).parent) t, ?_⟩
  unfold exit
  dsimp only
  rw [Ptable.setProc_self]

theorem exit_inv (h : t.Inv) (hp : t.cpu c = some p) (hl : ∀ c', t.lock ≠ .scheduler c') :
    (exit c p t).Inv := by
  obtain ⟨t₁, hw, he⟩ := exit_spec c p t
  rw [he]
  refine (h.wakes hw).leave (by rw [hw.cpu, hp]) (by rw [hw.lock]; exact hl) (fun x hx => ?_)
    (.inr ?_) rfl rfl
  · simp only [Ptable.Same, sched, Ptable.setProc_of_ne _ _ hx, and_self]
  · simp [sched]

/-- What a process assigns to its own fields. -/
theorem assigned_spec {e : Event} {f : Proc → Proc} (he : e.assigned = some (c, f)) (r : Proc) :
    ∃ k s o w, f r = { r with killed := k, sharedrec := s, ofile := o, widx := w } := by
  cases e with
  | fault c =>
    obtain ⟨-, rfl⟩ := Prod.mk.inj (Option.some.inj he)
    exact ⟨_, _, _, _, rfl⟩
  | getshared c idx =>
    simp only [Event.assigned] at he
    split_ifs at he
    obtain ⟨-, rfl⟩ := Prod.mk.inj (Option.some.inj he)
    exact ⟨_, _, _, _, rfl⟩
  | releaseshared c idx =>
    simp only [Event.assigned] at he
    split_ifs at he
    obtain ⟨-, rfl⟩ := Prod.mk.inj (Option.some.inj he)
    exact ⟨_, _, _, _, rfl⟩
  | fdalloc c f =>
    obtain ⟨-, rfl⟩ := Prod.mk.inj (Option.some.inj he)
    unfold fdalloc
    split
    · exact ⟨_, _, _, _, rfl⟩
    · exact ⟨_, _, _, _, rfl⟩
  | close c fd =>
    obtain ⟨-, rfl⟩ := Prod.mk.inj (Option.some.inj he)
    exact ⟨_, _, _, _, rfl⟩
  | splitw c i =>
    obtain ⟨-, rfl⟩ := Prod.mk.inj (Option.some.inj he)
    exact ⟨_, _, _, _, rfl⟩
  | _ => cases he

/-- **Every step keeps the invariant.** -/
theorem inv_step {e : Event} (h : t.Inv) (hstep : step e t = some t') : t'.Inv := by
  have hfree : t.lock = .free → ∀ c', t.lock ≠ .scheduler c' := by
    intro hl c'
    rw [hl]
    simp
  cases step_moves hstep with
  | userinit hlock hinit halloc =>
    obtain ⟨hun, rfl⟩ := allocproc_spec halloc
    refine qpush_inv (h.setIdle (.inl hun) (fun x hx => ?_) ?_ rfl rfl)
    · simp only [Ptable.Same, allocprocInit, Ptable.setProc_of_ne _ _ hx, and_self]
    · simp only [allocprocInit, Ptable.setProc_self]
  | idle hlock hcpu hs =>
    have hsch := schedule_frame t
    exact h.woken (fun x => by rw [hsch.1]; exact .refl _) hsch.2.1 hsch.2.2.1
  | dispatch hlock hcpu hs =>
    have hsch := schedule_frame t
    refine h.dispatch hlock hcpu (schedule_runnable hs) (fun x hx => ?_) ?_ ?_ ?_ rfl
    · simp only [Ptable.Same, Ptable.setProc_of_ne _ _ hx, hsch.1, and_self]
    · rw [Ptable.setProc_self]
    · rw [Ptable.setProc_self, hsch.1]
    · rw [hsch.2.1]
  | resume hlock hcpu => exact resume_inv h hcpu fun c' => by rw [hlock]; simp
  | schedReturn hlock => exact h.schedReturn hlock
  | timer hlock hp => exact timer_inv h hp.cpu (hfree hlock)
  | assign he hp hcall =>
    obtain ⟨k, s, o, w, hf⟩ := assigned_spec he (t.proc _)
    exact h.setProc (by rw [hf]) (by rw [hf]) (.inr (by rw [hf]))
  | yield hlock hp => exact yield_inv h hp.cpu (hfree hlock)
  | sleep hlock hp => exact sleep_inv h hp.cpu (hfree hlock) _ _
  | wakeup hlock => exact h.wakes (wakeup1_wakes _ t)
  | kill hlock => exact kill_inv h _
  | allocFail hlock => exact h
  | alloc hlock hp hcall halloc =>
    obtain ⟨hun, ht₁⟩ := allocproc_spec halloc
    refine h.setCall (h.runs hp) (.inl hun) (fun x hx => ?_) (fun x hx => ?_) ?_ ?_ ?_
      (fun y hy => ?_)
    · have := h.embryo x _ hx
      rw [hun] at this
      cases this
    · simp only [ht₁, Ptable.Same, Ptable.setProc_of_ne _ _ hx, and_self]
    · rw [ht₁, Ptable.setProc_self]
    · rw [ht₁, Ptable.setProc_cpu]
    · rw [ht₁, Ptable.setProc_lock]
    · obtain rfl := Option.some.inj hy
      rw [ht₁, Ptable.setProc_self]
      exact ⟨rfl, rfl⟩
  | allocInit hp hcall =>
    have he := h.embryo _ _ (congrArg Call.child hcall)
    exact h.stage hp (congrArg Call.child hcall) rfl fun y hy => ⟨(Option.some.inj hy).symm, he⟩
  | allocFree hp hcall =>
    exact h.stage hp (congrArg Call.child hcall) rfl fun y hy => by cases hy
  | forkCopy hp hcall =>
    have he := h.embryo _ _ (congrArg Call.child hcall)
    exact h.stage hp (congrArg Call.child hcall) rfl fun y hy => ⟨(Option.some.inj hy).symm, he⟩
  | forkFree hp hcall =>
    exact h.stage hp (congrArg Call.child hcall) rfl fun y hy => by cases hy
  | forkCommit hlock hp hcall =>
    have hchild := congrArg Call.child hcall
    refine h.setCall (h.runs hp) (.inr (h.embryo _ _ hchild)) (fun x hx => h.unique _ _ _ hx hchild)
      (fun x hx => ?_) ?_ ?_ ?_ ?_
    · simp only [Ptable.Same, forkCommit, Ptable.setProc_of_ne _ _ hx, qpush_state, qpush_call,
        and_self]
    · simp only [forkCommit, Ptable.setProc_self, qpush_call]
    · exact (qpush_other _ _).2.1
    · exact (qpush_other _ _).1
    · exact fun y hy => by cases hy
  | exitFiles hp hcall hinit =>
    exact h.setProc rfl (congrArg Call.child hcall).symm (.inl (h.runs hp))
  | exit hlock hp hcall => exact exit_inv h hp.cpu (hfree hlock)
  | wait hlock hp hcall => exact waitLoop_inv h hp.cpu (hfree hlock)

end Step

end OsPlayground
