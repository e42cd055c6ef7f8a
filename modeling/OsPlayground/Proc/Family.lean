import OsPlayground.Proc.Inv

/-!
# Parents and children

* `Proc.Kin`: a process seen by the others, of which at most the state changes, by being woken.
* `Ptable.Family`: parents are live, every process but init has one, and no process sleeps in
  `wait` while it has a zombie child.
* `wakeup1_wakesAll`, `reparent_parent`, `reparent_wakesInit`: the loops of `wakeup1` and `exit`.
* **`family_step`**: every step keeps it.
-/

namespace OsPlayground

/-- Neither free, nor being made, nor dead. -/
def ProcState.Live (s : ProcState) : Prop := s = .sleeping ∨ s = .runnable ∨ s = .running

/-- `r'` is `r`, perhaps woken, as far as its parent and its children are concerned. -/
structure Proc.Kin (r r' : Proc) : Prop where
  state : r'.state = r.state ∨ r.state = .sleeping ∧ r'.state = .runnable
  parent : r'.parent = r.parent
  call : r'.call = r.call
  context : r'.context = r.context
  chan : r'.chan = r.chan
  pid : r'.pid = r.pid

namespace Proc.Kin

variable {r r' r'' : Proc}

theorem refl (r : Proc) : Kin r r := ⟨.inl rfl, rfl, rfl, rfl, rfl, rfl⟩

theorem trans (h : Kin r r') (h' : Kin r' r'') : Kin r r'' := by
  obtain ⟨h₁, h₂, h₃, h₄, h₅, h₆⟩ := h
  obtain ⟨h₁', h₂', h₃', h₄', h₅', h₆'⟩ := h'
  refine ⟨?_, h₂'.trans h₂, h₃'.trans h₃, h₄'.trans h₄, h₅'.trans h₅, h₆'.trans h₆⟩
  grind

theorem of_woken (h : Woken r r') (hp : r'.parent = r.parent) : Kin r r' := by
  have he := h.eq
  refine ⟨?_, hp, ?_, ?_, ?_, ?_⟩
  · exact h.state.imp And.left id
  all_goals rw [he]

theorem of_relinked (h : Relinked r r') : Kin r r' := by
  unfold Relinked at h
  rw [h]
  exact ⟨.inl rfl, rfl, rfl, rfl, rfl, rfl⟩

end Proc.Kin

namespace Ptable

/-- The invariant of parents and children. -/
structure Family (t : Ptable) : Prop where
  init : ∀ i, t.initproc = some i → (t.proc i).state.Live
  noInit : t.initproc = none → ∀ p, (t.proc p).state = .unused
  exiting : ∀ p, (t.proc p).call = .exit → t.initproc ≠ some p
  live : ∀ p q, (t.proc p).parent = some q → (t.proc q).state.Live
  unused : ∀ p, (t.proc p).state = .unused → (t.proc p).parent = none
  staged : ∀ p np, (t.proc p).call = .allocproc np ∨ (t.proc p).call = .fork np →
    (t.proc np).parent = none
  forked : ∀ p np, (t.proc p).call = .forked np → (t.proc np).parent ≠ none
  parent : ∀ p, (t.proc p).state.Live ∨ (t.proc p).state = .zombie → t.initproc ≠ some p →
    (t.proc p).parent ≠ none
  chan : ∀ q, (t.proc q).state = .sleeping → (t.proc q).context = .wait →
    (t.proc q).chan = .proc q
  irrefl : ∀ p, (t.proc p).parent ≠ some p
  root : ∀ i, t.initproc = some i → (t.proc i).parent = none
  waits : ∀ p q, (t.proc p).state = .zombie → (t.proc p).parent = some q →
    ¬ ((t.proc q).state = .sleeping ∧ (t.proc q).context = .wait)

variable {t t' : Ptable} {c : ℕ} {p np : Slot}

theorem boot_family : boot.Family := by
  refine ⟨by simp [boot], fun _ _ => rfl, by simp [boot], by simp [boot], fun _ _ => rfl, ?_,
    by simp [boot], ?_, by simp [boot], by simp [boot], by simp [boot], by simp [boot]⟩
  · exact fun _ _ _ => rfl
  · intro p h
    simp [boot, ProcState.Live] at h

/-- At most the process `x` changes in other ways than being woken, and it stays what it is in the
family. -/
structure Steady (t t' : Ptable) (x : Slot) : Prop where
  other : ∀ y, y ≠ x → Proc.Kin (t.proc y) (t'.proc y)
  initproc : t'.initproc = t.initproc
  parent : (t'.proc x).parent = (t.proc x).parent
  pid : (t'.proc x).pid = (t.proc x).pid
  call : (t'.proc x).call = (t.proc x).call ∨ (t'.proc x).call = .exit ∧ t.initproc ≠ some x
  state : (t.proc x).state.Live ∧ (t'.proc x).state.Live ∨ (t'.proc x).state = (t.proc x).state

namespace Steady

variable {t'' : Ptable} {x : Slot}

theorem of_kin {u : Ptable} (h : ∀ y, Proc.Kin (t.proc y) (u.proc y))
    (hinit : u.initproc = t.initproc) (x : Slot) : Steady t u x := by
  refine ⟨fun y _ => h y, hinit, (h x).parent, (h x).pid, .inl (h x).call, ?_⟩
  have := (h x).state
  grind [ProcState.Live]

theorem trans (h : Steady t t' x) (h' : Steady t' t'' x) : Steady t t'' x := by
  refine ⟨fun y hy => (h.other y hy).trans (h'.other y hy), h'.initproc.trans h.initproc,
    h'.parent.trans h.parent, h'.pid.trans h.pid, ?_, ?_⟩
  · have h₁ := h.call
    have h₂ := h'.call
    rw [h.initproc] at h₂
    grind
  · have h₁ := h.state
    have h₂ := h'.state
    grind

theorem congr (h : Steady t t' x) (hproc : t''.proc = t'.proc) (hinit : t''.initproc = t'.initproc) :
    Steady t t'' x :=
  h.trans (.of_kin (fun y => by rw [hproc]; exact .refl _) hinit x)

theorem live_iff (h : Steady t t' x) (y : Slot) :
    (t'.proc y).state.Live ↔ (t.proc y).state.Live := by
  by_cases hy : y = x
  · rw [hy]
    rcases h.state with ⟨h, h'⟩ | h
    · exact ⟨fun _ => h, fun _ => h'⟩
    · rw [h]
  · have := (h.other y hy).state
    grind [ProcState.Live]

theorem dead_iff (h : Steady t t' x) (y : Slot) {s : ProcState} (hs : ¬ s.Live) :
    (t'.proc y).state = s ↔ (t.proc y).state = s := by
  by_cases hy : y = x
  · rw [hy]
    have := h.state
    grind
  · have := (h.other y hy).state
    grind [ProcState.Live]

end Steady

theorem Family.update (h : t.Family) {x : Slot} (hs : Steady t t' x)
    (hw : (t'.proc x).state = .sleeping → (t'.proc x).context = .wait →
      (t'.proc x).chan = .proc x ∧ ∀ y, (t.proc y).state = .zombie → (t.proc y).parent ≠ some x) :
    t'.Family := by
  have hlive := hs.live_iff
  have hun := fun y => hs.dead_iff y (s := .unused) (by simp [ProcState.Live])
  have hzombie := fun y => hs.dead_iff y (s := .zombie) (by simp [ProcState.Live])
  obtain ⟨ho, hinit, hp, -, hcall, -⟩ := hs
  obtain ⟨h₁, h₂, h₃, h₄, h₅, h₆, h₇, h₈, h₉, h₁₀, h₁₁, h₁₂⟩ := h
  have hpar : ∀ y, (t'.proc y).parent = (t.proc y).parent := fun y => by
    by_cases hy : y = x
    · rw [hy, hp]
    · exact (ho y hy).parent
  refine ⟨?_, ?_, ?_, ?_, ?_, ?_, ?_, ?_, ?_, ?_, ?_, ?_⟩
  · rw [hinit]
    exact fun i hi => (hlive i).mpr (h₁ i hi)
  · rw [hinit]
    exact fun hn y => (hun y).mpr (h₂ hn y)
  · intro y hy
    rw [hinit]
    by_cases hyx : y = x
    · grind
    · exact h₃ y ((ho y hyx).call ▸ hy)
  · intro y q hq
    exact (hlive q).mpr (h₄ y q (hpar y ▸ hq))
  · intro y hy
    rw [hpar]
    exact h₅ y ((hun y).mp hy)
  · intro y n hn
    rw [hpar]
    by_cases hyx : y = x
    · grind
    · exact h₆ y n ((ho y hyx).call ▸ hn)
  · intro y n hn
    rw [hpar]
    by_cases hyx : y = x
    · grind
    · exact h₇ y n ((ho y hyx).call ▸ hn)
  · intro y hy hi
    rw [hpar]
    rw [hlive, hzombie] at hy
    exact h₈ y hy (hinit ▸ hi)
  · intro y hs hc
    by_cases hyx : y = x
    · rw [hyx] at hs hc ⊢
      exact (hw hs hc).1
    · have hk := ho y hyx
      grind [Proc.Kin]
  · intro y
    rw [hpar]
    exact h₁₀ y
  · intro i hi
    rw [hpar]
    exact h₁₁ i (hinit ▸ hi)
  · intro y q hy hq
    rw [hzombie] at hy
    rw [hpar] at hq
    by_cases hqx : q = x
    · rw [hqx] at hq ⊢
      exact fun hs => (hw hs.1 hs.2).2 y hy hq
    · have hk := ho q hqx
      grind [Proc.Kin]

theorem Family.kin (h : t.Family) (ho : ∀ y, Proc.Kin (t.proc y) (t'.proc y))
    (hinit : t'.initproc = t.initproc) : t'.Family := by
  obtain ⟨h₁, h₂, h₃, h₄, h₅, h₆, h₇, h₈, h₉, h₁₀, h₁₁, h₁₂⟩ := h
  have hstate := fun y => (ho y).state
  have hpar := fun y => (ho y).parent
  have hcall := fun y => (ho y).call
  have hctx := fun y => (ho y).context
  have hchan := fun y => (ho y).chan
  constructor
  all_goals grind [ProcState.Live]

end Ptable

/-! ## The loops of `wakeup1` and `exit` -/

section Loops

variable {t t' : Ptable} {p np : Slot}

theorem Proc.Woken.not_waiting {r r' : Proc} (h : Woken r r') {chan : Chan}
    (hr : ¬ (r.state = .sleeping ∧ r.chan = chan)) :
    ¬ (r'.state = .sleeping ∧ r'.chan = chan) := by
  have hs := h.state
  have hc : r'.chan = r.chan := by rw [h.eq]
  grind

@[simp] theorem qpush_parent (np x : Slot) (t : Ptable) :
    ((qpush np t).proc x).parent = (t.proc x).parent := by
  rw [qpush_relinked np x t]

theorem wakeOne_parent (chan : Chan) (t : Ptable) (p x : Slot) :
    ((wakeOne chan t p).proc x).parent = (t.proc x).parent := by
  unfold wakeOne
  split_ifs
  · by_cases hx : x = p
    · subst hx
      simp
    · simp [Ptable.setProc_of_ne _ _ hx]
  · rfl

theorem wakeup1_kin (chan : Chan) (t : Ptable) (x : Slot) :
    Proc.Kin (t.proc x) ((wakeup1 chan t).proc x) := by
  refine .of_woken ((wakeup1_wakes chan t).proc x) ?_
  have hfold : ∀ (l : List Slot) (t : Ptable),
      ((l.foldl (wakeOne chan) t).proc x).parent = (t.proc x).parent := by
    intro l
    induction l with
    | nil => exact fun _ => rfl
    | cons p l ih => exact fun t => (ih _).trans (wakeOne_parent chan t p x)
  rw [wakeup1, hfold]

theorem wakeOne_wakes_self (chan : Chan) (t : Ptable) (p : Slot) :
    ¬ (((wakeOne chan t p).proc p).state = .sleeping ∧ ((wakeOne chan t p).proc p).chan = chan) := by
  unfold wakeOne
  split_ifs with h
  · simp
  · exact h

/-- **`wakeup1` leaves nobody asleep on its channel.** -/
theorem wakeup1_wakesAll (chan : Chan) (t : Ptable) (x : Slot) :
    ¬ (((wakeup1 chan t).proc x).state = .sleeping ∧ ((wakeup1 chan t).proc x).chan = chan) := by
  have hall : ∀ (l : List Slot) (t : Ptable), x ∈ l →
      ¬ (((l.foldl (wakeOne chan) t).proc x).state = .sleeping ∧
        ((l.foldl (wakeOne chan) t).proc x).chan = chan) := by
    intro l
    induction l with
    | nil => exact fun _ h => absurd h (by simp)
    | cons p l ih =>
      intro t hx
      rcases List.mem_cons.mp hx with rfl | hx
      · exact ((Wakes.foldl (wakeOne_wakes chan) l _).proc x).not_waiting
          (wakeOne_wakes_self chan t x)
      · exact ih _ hx
  have hx : x ∈ slots := by simp
  have := hall slots t hx
  rwa [← wakeup1] at this

theorem reparentOne_parent (cur : Slot) (t : Ptable) (p x : Slot) :
    ((reparentOne cur t p).proc x).parent =
      if x = p ∧ (t.proc p).parent = some cur then t.initproc else (t.proc x).parent := by
  unfold reparentOne
  by_cases hp : (t.proc p).parent = some cur
  · have hset : ((t.setProc p fun r => { r with parent := t.initproc }).proc x).parent =
        if x = p then t.initproc else (t.proc x).parent := by
      rw [Ptable.setProc_apply]
      split_ifs <;> rfl
    simp only [hp, if_true, and_true, ← hset]
    split_ifs
    · exact (wakeup1_kin _ _ _).parent
    · rfl
  · simp [hp]

/-- **The children of `cur` go to init.** -/
theorem reparent_parent {c : Slot} (l : List Slot) {t : Ptable} (hi : t.initproc ≠ some c)
    (x : Slot) : ((l.foldl (reparentOne c) t).proc x).parent =
      if x ∈ l ∧ (t.proc x).parent = some c then t.initproc else (t.proc x).parent := by
  induction l generalizing t with
  | nil => simp
  | cons p l ih =>
    have hinit := (reparentOne_wakes c t p).initproc
    rw [List.foldl_cons, ih (hinit ▸ hi), hinit, reparentOne_parent]
    grind

/-- **Init is woken for the zombies among them.** -/
theorem reparent_wakesInit {cur i y : Slot} (l : List Slot) {t : Ptable} (hi : t.initproc = some i)
    (hy : y ∈ l) (hp : (t.proc y).parent = some cur) (hz : (t.proc y).state = .zombie) :
    ¬ (((l.foldl (reparentOne cur) t).proc i).state = .sleeping ∧
      ((l.foldl (reparentOne cur) t).proc i).chan = .proc i) := by
  induction l generalizing t with
  | nil => simp at hy
  | cons p l ih =>
    have hw := reparentOne_wakes cur t p
    by_cases hyp : y = p
    · subst hyp
      refine ((Wakes.foldl (reparentOne_wakes cur) l _).proc i).not_waiting ?_
      unfold reparentOne
      simp only [hp, if_true, Ptable.setProc_self, hz, Ptable.setProc_initproc, hi]
      exact wakeup1_wakesAll _ _ _
    · refine ih (hw.initproc.trans hi) ((List.mem_cons.mp hy).resolve_left hyp) ?_ ?_
      · rw [reparentOne_parent]
        simp [hyp, hp]
      · exact ((hw.proc y).state_iff (by decide) (by decide)).mpr hz

end Loops

/-! ## One step -/

namespace Ptable

section Step

variable {t t' : Ptable} {c : ℕ} {p np : Slot}

theorem kin_setProc {f : Proc → Proc} {y : Slot} (hy : y ≠ p) :
    Proc.Kin (t.proc y) ((t.setProc p f).proc y) := by
  rw [setProc_of_ne _ _ hy]
  exact .refl _

theorem Family.congr (h : t.Family) (hproc : t'.proc = t.proc) (hinit : t'.initproc = t.initproc) :
    t'.Family :=
  h.kin (fun y => by rw [hproc]; exact .refl _) hinit

theorem sleep_steady (hrun : (t.proc p).state = .running) (chan : Chan) (ctx : Context) :
    Steady t (OsPlayground.sleep c p chan ctx t) p := by
  refine ⟨fun y hy => ?_, rfl, ?_, ?_, .inl ?_, .inl ⟨.inr (.inr hrun), ?_⟩⟩
  · simp only [OsPlayground.sleep, sched, setProc_of_ne _ _ hy]
    exact .refl _
  all_goals simp [OsPlayground.sleep, sched, ProcState.Live]

theorem Family.sleep (h : t.Family) (hrun : (t.proc p).state = .running) {chan : Chan}
    {ctx : Context} (hw : ctx = .wait → chan = .proc p ∧
      ∀ y, (t.proc y).state = .zombie → (t.proc y).parent ≠ some p) :
    (OsPlayground.sleep c p chan ctx t).Family := by
  refine h.update (sleep_steady hrun chan ctx) ?_
  simpa [OsPlayground.sleep, sched] using hw

@[simp] theorem qpush_pid (np x : Slot) (t : Ptable) :
    ((qpush np t).proc x).pid = (t.proc x).pid := by
  rw [qpush_relinked np x t]

theorem yield_steady (hrun : (t.proc p).state = .running) :
    Steady t (OsPlayground.yield c p t) p := by
  refine ⟨fun y hy => ?_, (qpush_other p _).2.2.2.1, ?_, ?_, .inl ?_,
    .inl ⟨.inr (.inr hrun), ?_⟩⟩
  · simp only [OsPlayground.yield, sched, setProc_of_ne _ _ hy]
    refine .of_relinked (.trans ?_ (qpush_relinked p y _))
    rw [setProc_of_ne _ _ hy, setProc_of_ne _ _ hy]
    exact .refl _
  all_goals simp [OsPlayground.yield, sched, ProcState.Live]

theorem Family.yield (h : t.Family) (hrun : (t.proc p).state = .running) :
    (OsPlayground.yield c p t).Family := by
  refine h.update (yield_steady hrun) ?_
  simp [OsPlayground.yield, sched]

theorem setProc_kin {f : Proc → Proc} (hf : Proc.Kin (t.proc p) (f (t.proc p))) (y : Slot) :
    Proc.Kin (t.proc y) ((t.setProc p f).proc y) := by
  by_cases hy : y = p
  · subst hy
    rw [setProc_self]
    exact hf
  · exact kin_setProc hy

theorem timepiece_kin (y : Slot) : Proc.Kin (t.proc y) ((t.setProc p fun r =>
    { r with timepiece := (r.timepiece + (2 ^ 32 - 1)) % 2 ^ 32 }).proc y) :=
  setProc_kin ⟨.inl rfl, rfl, rfl, rfl, rfl, rfl⟩ y

theorem timer_steady : Steady t (OsPlayground.timer c p t) p := by
  have htime := Steady.of_kin (timepiece_kin (t := t) (p := p)) rfl p
  unfold OsPlayground.timer
  dsimp only
  split_ifs with hrun
  · exact htime.trans (yield_steady (by rw [setProc_self]; exact hrun))
  · exact htime
  · exact .of_kin (fun _ => .refl _) rfl p

theorem Family.timer (h : t.Family) : (OsPlayground.timer c p t).Family := by
  have htime := h.kin (timepiece_kin (p := p)) rfl
  unfold OsPlayground.timer
  dsimp only
  split_ifs with hrun
  · exact htime.yield (by rw [setProc_self]; exact hrun)
  · exact htime
  · exact h

/-- **A zombie is reaped.** Nobody is its child. -/
theorem Family.reap (h : t.Family) (hi : t.Inv) {z : Slot} (hz : (t.proc z).state = .zombie) :
    (OsPlayground.reap z t).Family := by
  have hnone := hi.idle z (.inr (.inr hz))
  have hchild : ∀ y, (t.proc y).parent ≠ some z := fun y hy => by
    have := h.live y z hy
    grind [ProcState.Live]
  have hinit : t.initproc ≠ some z := fun hz' => by
    have := h.init z hz'
    grind [ProcState.Live]
  have hembryo := hi.embryo
  obtain ⟨h₁, h₂, h₃, h₄, h₅, h₆, h₇, h₈, h₉, h₁₀, h₁₁, h₁₂⟩ := h
  unfold OsPlayground.reap
  constructor
  all_goals
    simp only [setProc_apply, setProc_initproc]
    grind [ProcState.Live, Call.child]

theorem zombieChild_none (h : zombieChild p t = none) (y : Slot)
    (hz : (t.proc y).state = .zombie) : (t.proc y).parent ≠ some p := by
  intro hp
  have := List.find?_eq_none.mp h y (by simp)
  simp [hp, hz] at this

/-- **A round of `wait`.** -/
theorem Family.waitLoop (h : t.Family) (hi : t.Inv) (hrun : (t.proc p).state = .running) :
    (OsPlayground.waitLoop c p t).1.Family := by
  unfold OsPlayground.waitLoop
  rcases hz : zombieChild p t with _ | z
  · dsimp only
    split_ifs
    · exact h.congr rfl rfl
    · exact h.sleep hrun fun _ => ⟨rfl, zombieChild_none hz⟩
  · exact (h.reap hi (zombieChild_spec hz).2).congr rfl rfl

theorem chan_steady : Steady t (t.setProc p fun r => { r with chan := .null }) p := by
  refine ⟨fun y hy => kin_setProc hy, rfl, ?_, ?_, .inl ?_, .inr ?_⟩
  all_goals simp

theorem Family.resume (h : t.Family) (hi : t.Inv) (hrun : (t.proc p).state = .running) :
    (OsPlayground.resume c p t).Family := by
  have hchan : (t.setProc p fun r => { r with chan := .null }).Family :=
    h.update chan_steady (by simp [hrun])
  have hci : (t.setProc p fun r => { r with chan := .null }).Inv := hi.setProc rfl rfl (.inr rfl)
  unfold OsPlayground.resume
  cases (t.proc p).context with
  | forkret => exact h.congr rfl rfl
  | yield => exact h.congr rfl rfl
  | sleep => exact hchan.congr rfl rfl
  | wait => exact hchan.waitLoop hci (by rw [setProc_self]; exact hrun)

theorem exit_parent (hinit : t.initproc ≠ some p) (y : Slot) :
    ((OsPlayground.exit c p t).proc y).parent =
      if (t.proc y).parent = some p then t.initproc else (t.proc y).parent := by
  have hk₁ := wakeup1_kin (Chan.ofProc (t.proc p).parent) t
  have hinit₁ := (wakeup1_wakes (Chan.ofProc (t.proc p).parent) t).initproc
  unfold OsPlayground.exit
  dsimp only
  generalize wakeup1 (Chan.ofProc (t.proc p).parent) t = t₁ at hk₁ hinit₁ ⊢
  have hpar := reparent_parent (c := p) slots (t := t₁) (hinit₁ ▸ hinit)
  generalize slots.foldl (reparentOne p) t₁ = t₂ at hpar ⊢
  have hy := hpar y
  simp only [List.mem_finRange, true_and, hinit₁, (hk₁ y).parent] at hy
  rw [← hy]
  unfold sched
  by_cases hyp : y = p
  · subst hyp
    simp
  · simp [setProc_of_ne _ _ hyp]

theorem exit_initproc (c : ℕ) (p : Slot) (t : Ptable) :
    (OsPlayground.exit c p t).initproc = t.initproc := by
  obtain ⟨t₁, hw, he⟩ := exit_spec c p t
  rw [he, ← hw.initproc]
  rfl

/-- **`exit`.** The parent is woken before the process becomes a zombie, and so is init if a zombie
is handed to it. -/
theorem Family.exit (h : t.Family) (hrun : (t.proc p).state = .running)
    (hcall : (t.proc p).call = .exit) : (OsPlayground.exit c p t).Family := by
  have hinit := h.exiting p hcall
  have hk₁ := wakeup1_kin (Chan.ofProc (t.proc p).parent) t
  have hw₁ := wakeup1_wakes (Chan.ofProc (t.proc p).parent) t
  have hall := wakeup1_wakesAll (Chan.ofProc (t.proc p).parent) t
  unfold OsPlayground.exit
  dsimp only
  generalize wakeup1 (Chan.ofProc (t.proc p).parent) t = t₁ at hk₁ hw₁ hall ⊢
  have hw₂ : Wakes t₁ (slots.foldl (reparentOne p) t₁) :=
    Wakes.foldl (reparentOne_wakes p) slots t₁
  have hinit₁ : t₁.initproc = t.initproc := hw₁.initproc
  have hpar := reparent_parent (c := p) slots (t := t₁) (hinit₁ ▸ hinit)
  -- Init does not sleep in `wait` if it got a zombie.
  have hgiven : ∀ i y, t.initproc = some i → (t.proc y).parent = some p →
      (t.proc y).state = .zombie → ¬ (((slots.foldl (reparentOne p) t₁).proc i).state = .sleeping ∧
        ((slots.foldl (reparentOne p) t₁).proc i).chan = .proc i) := by
    intro i y hi hy hz
    have hmem : y ∈ slots := by simp
    exact reparent_wakesInit slots (t := t₁) (hinit₁.trans hi) hmem ((hk₁ y).parent.trans hy)
      (((hw₁.proc y).state_iff (by decide) (by decide)).mpr hz)
  generalize slots.foldl (reparentOne p) t₁ = t₂ at hw₂ hpar hgiven ⊢
  have hinit₂ : t₂.initproc = t.initproc := hw₂.initproc.trans hinit₁
  have hw := fun y => (hw₁.proc y).trans (hw₂.proc y)
  have hpar : ∀ y, (t₂.proc y).parent =
      if (t.proc y).parent = some p then t.initproc else (t.proc y).parent := fun y => by
    have := hpar y
    simpa [hinit₁, (hk₁ y).parent] using this
  -- Nor does the parent.
  have hparent : ∀ q, (t.proc p).parent = some q →
      ¬ ((t₂.proc q).state = .sleeping ∧ (t₂.proc q).chan = .proc q) := by
    intro q hq
    refine (hw₂.proc q).not_waiting ?_
    have := hall q
    rwa [hq] at this
  have hst := fun y => (hw y).state
  have hcall₂ : ∀ y, (t₂.proc y).call = (t.proc y).call := fun y => (hw y).call_eq
  have hctx : ∀ y, (t₂.proc y).context = (t.proc y).context := fun y => by rw [(hw y).eq]
  have hchan : ∀ y, (t₂.proc y).chan = (t.proc y).chan := fun y => by rw [(hw y).eq]
  have hsome : t.initproc ≠ none := fun hn => by
    have := h.noInit hn p
    simp [hrun] at this
  clear hw hw₁ hw₂ hk₁ hall hinit₁
  obtain ⟨h₁, h₂, h₃, h₄, h₅, h₆, h₇, h₈, h₉, h₁₀, h₁₁, h₁₂⟩ := h
  unfold sched
  constructor
  all_goals
    simp only [setProc_apply, setProc_initproc, hinit₂, if_true]
    grind [ProcState.Live]

/-- **A stage of `fork`**: `p` is running, the slot `np` is not live. -/
theorem Family.stage (h : t.Family) (hi : t.Inv) (hrun : (t.proc p).state = .running)
    (hnp : (t.proc np).state = .unused ∨ (t.proc np).state = .embryo)
    (hmine : ∀ x, (t.proc x).call.child = some np → x = p)
    (ho : ∀ y, y ≠ np → y ≠ p → Proc.Kin (t.proc y) (t'.proc y))
    (hinit : t'.initproc = t.initproc) {k : Call} (hk : k ≠ .exit)
    (hp₁ : (t'.proc p).state = .running) (hp₂ : (t'.proc p).parent = (t.proc p).parent)
    (hp₃ : (t'.proc p).call = k)
    (hcall : (t'.proc np).call = (t.proc np).call)
    (hlive : (t'.proc np).state ≠ .sleeping ∧ (t'.proc np).state ≠ .zombie)
    (hpar : (t'.proc np).parent = (t.proc np).parent ∨ (t'.proc np).parent = some p)
    (hun : (t'.proc np).state = .unused → (t'.proc np).parent = none)
    (hrunnable : (t'.proc np).state.Live → (t'.proc np).parent ≠ none)
    (hstaged : k = .allocproc np ∨ k = .fork np → (t'.proc np).parent = none)
    (hforked : k = .forked np → (t'.proc np).parent ≠ none)
    (hchild : ∀ x, k.child = some x → x = np) : t'.Family := by
  have hidle := hi.idle np
  have hne : p ≠ np := by
    rintro rfl
    simp [hrun] at hnp
  have hst := fun y h₁ h₂ => (ho y h₁ h₂).state
  have hpar' := fun y h₁ h₂ => (ho y h₁ h₂).parent
  have hcall' := fun y h₁ h₂ => (ho y h₁ h₂).call
  have hctx' := fun y h₁ h₂ => (ho y h₁ h₂).context
  have hchan' := fun y h₁ h₂ => (ho y h₁ h₂).chan
  clear ho
  obtain ⟨h₁, h₂, h₃, h₄, h₅, h₆, h₇, h₈, h₉, h₁₀, h₁₁, h₁₂⟩ := h
  constructor
  all_goals grind [ProcState.Live, Call.child]

/-- The same for an assignment to the slot. -/
theorem Family.stageSet (h : t.Family) (hi : t.Inv) (hrun : (t.proc p).state = .running)
    (hnp : (t.proc np).state = .unused ∨ (t.proc np).state = .embryo)
    (hmine : ∀ x, (t.proc x).call.child = some np → x = p) {f : Proc → Proc} {k : Call}
    (hk : k ≠ .exit) (hchild : ∀ x, k.child = some x → x = np)
    (hcall : (f (t.proc np)).call = (t.proc np).call)
    (hlive : (f (t.proc np)).state = .unused ∨ (f (t.proc np)).state = .embryo)
    (hpar : (f (t.proc np)).parent = (t.proc np).parent ∨ (f (t.proc np)).parent = some p)
    (hun : (f (t.proc np)).state = .unused → (f (t.proc np)).parent = none)
    (hstaged : k = .allocproc np ∨ k = .fork np → (f (t.proc np)).parent = none)
    (hforked : k = .forked np → (f (t.proc np)).parent ≠ none) :
    ((t.setProc np f).setProc p fun r => { r with call := k }).Family := by
  have hne : np ≠ p := by
    rintro rfl
    simp [hrun] at hnp
  have hself : ((t.setProc np f).setProc p fun r => { r with call := k }).proc np =
      f (t.proc np) := by rw [setProc_of_ne _ _ hne, setProc_self]
  refine h.stage hi hrun hnp hmine (fun y hy hyp => ?_) rfl hk ?_ ?_ ?_ ?_ ?_ ?_ ?_ ?_ ?_ ?_ hchild
  · rw [setProc_of_ne _ _ hyp, setProc_of_ne _ _ hy]
    exact .refl _
  · rw [setProc_self, setProc_of_ne _ _ hne.symm]
    exact hrun
  · rw [setProc_self, setProc_of_ne _ _ hne.symm]
  · rw [setProc_self]
  all_goals rw [hself]
  · exact hcall
  · grind
  · exact hpar
  · exact hun
  · grind [ProcState.Live]
  · exact hstaged
  · exact hforked

theorem Family.userinit {t₁ : Ptable} (h : t.Family) (hi : t.Inv) (hn : t.initproc = none)
    (ho : ∀ y, y ≠ p → t₁.proc y = t.proc y) (hs : (t₁.proc p).state = .runnable)
    (hpar : (t₁.proc p).parent = (t.proc p).parent) (hcall : (t₁.proc p).call = (t.proc p).call)
    (hinit : t₁.initproc = some p) : t₁.Family := by
  have hall := h.noInit hn
  have hidle := fun y => hi.idle y (.inl (hall y))
  have hnone := fun y => h.unused y (hall y)
  constructor
  all_goals grind [ProcState.Live]

end Step

end Ptable

section Step

variable {t t' : Ptable} {e : Event} {c : ℕ} {p : Slot}

theorem dispatch_steady (hs : (schedule t).2 = some p) :
    Ptable.Steady t { (schedule t).1.setProc p fun r => { r with state := .running } with
      cpu := Function.update (schedule t).1.cpu c (some p), lock := .process c } p := by
  have hsch := schedule_frame t
  refine ⟨fun y hy => ?_, hsch.2.2.2, ?_, ?_, .inl ?_,
    .inl ⟨.inr (.inl (schedule_runnable hs)), ?_⟩⟩
  · simp only [Ptable.setProc_of_ne _ _ hy, hsch.1]
    exact .refl _
  all_goals simp [hsch.1, ProcState.Live]

theorem assign_kin {f : Proc → Proc} (he : e.assigned = some (c, f)) (y : Slot) :
    Proc.Kin (t.proc y) ((t.setProc p f).proc y) := by
  obtain ⟨k, s, o, w, hf⟩ := assigned_spec he (t.proc p)
  refine Ptable.setProc_kin ?_ y
  rw [hf]
  exact ⟨.inl rfl, rfl, rfl, rfl, rfl, rfl⟩

theorem kill_initproc (pid : ℤ) (t : Ptable) : (kill pid t).1.initproc = t.initproc := by
  unfold kill
  split <;> rfl

theorem kill_kin (pid : ℤ) (y : Slot) : Proc.Kin (t.proc y) ((kill pid t).1.proc y) := by
  unfold kill
  split
  · exact .refl _
  · dsimp only
    refine Ptable.setProc_kin ?_ y
    refine ⟨?_, rfl, rfl, rfl, rfl, rfl⟩
    dsimp only
    split_ifs with hs
    · exact .inr ⟨hs, rfl⟩
    · exact .inl rfl

theorem exitFiles_steady (hinit : t.initproc ≠ some p) :
    Ptable.Steady t (t.setProc p fun r => { r with ofile := fun _ => none, call := .exit }) p := by
  refine ⟨fun y hy => Ptable.kin_setProc hy, rfl, ?_, ?_, .inr ⟨?_, hinit⟩, .inr ?_⟩
  all_goals simp

theorem forkCommit_kin {n y : Slot} (hy : y ≠ n) (t : Ptable) :
    Proc.Kin (t.proc y) ((forkCommit n t).proc y) := by
  simp only [forkCommit, Ptable.setProc_of_ne _ _ hy]
  refine .of_relinked (.trans ?_ (qpush_relinked n y _))
  rw [Ptable.setProc_of_ne _ _ hy]
  exact .refl _

theorem Ptable.Family.alloc {t₁ : Ptable} (h : t.Family) (hi : t.Inv) (hp : t.Runs c p)
    (halloc : allocproc t = some (np, t₁)) :
    (t₁.setProc p fun r => { r with call := .allocproc np }).Family := by
  obtain ⟨hun, ht₁⟩ := allocproc_spec halloc
  have hnone := h.unused np hun
  have hset := h.stageSet hi (hi.runs hp) (.inl hun) (fun x hx => ?_) (k := .allocproc np)
    (f := fun r => { r with state := .embryo, pid := t.nextpid }) (by simp) ?_ rfl (.inr rfl) (.inl rfl)
    (by simp) (fun _ => hnone) (by simp)
  · rw [ht₁]
    exact hset.congr rfl rfl
  · have := hi.embryo x _ hx
    rw [hun] at this
    cases this
  · simp [Call.child]

theorem Ptable.Family.forkCommit (h : t.Family) (hi : t.Inv) (hp : t.Runs c p)
    (hcall : (t.proc p).call = .forked np) :
    ((OsPlayground.forkCommit np t).setProc p fun r => { r with call := .none }).Family := by
  have hchild : (t.proc p).call.child = some np := congrArg Call.child hcall
  have he := hi.embryo p np hchild
  have hrun := hi.runs hp
  have hne : np ≠ p := by
    rintro rfl
    simp [hrun] at he
  have hself : ((OsPlayground.forkCommit np t).proc np).state = .runnable ∧
      ((OsPlayground.forkCommit np t).proc np).parent = (t.proc np).parent ∧
      ((OsPlayground.forkCommit np t).proc np).call = (t.proc np).call := by
    simp [OsPlayground.forkCommit]
  have hother := fun y hy => forkCommit_kin (n := np) (y := y) hy t
  refine h.stage hi hrun (.inr he) (fun x hx => hi.unique x p np hx hchild) (fun y hy hyp => ?_)
    (qpush_other np _).2.2.2.1 (k := .none) (by simp) ?_ ?_ ?_ ?_ ?_ ?_ ?_ ?_ (by simp)
    (by simp) (by simp [Call.child])
  · rw [Ptable.setProc_of_ne _ _ hyp]
    exact hother y hy
  · rw [Ptable.setProc_self]
    have := (hother p hne.symm).state
    grind
  · rw [Ptable.setProc_self]
    exact (hother p hne.symm).parent
  · rw [Ptable.setProc_self]
  all_goals rw [Ptable.setProc_of_ne _ _ hne]
  · exact hself.2.2
  · simp [hself.1]
  · exact .inl hself.2.1
  · simp [hself.1]
  · exact fun _ => hself.2.1 ▸ h.forked p np hcall

/-- **Every step keeps the families.** -/
theorem family_step (h : t.Family) (hi : t.Inv) (hstep : step e t = some t') : t'.Family := by
  cases step_moves hstep with
  | @userinit p t₁ hlock hinit halloc =>
    obtain ⟨hun, ht₁⟩ := allocproc_spec halloc
    refine (h.userinit hi hinit (p := p) (fun y hy => ?_) ?_ ?_ ?_ rfl).kin
      (fun y => .of_relinked (qpush_relinked p y _)) (qpush_other p _).2.2.2.1
    · simp only [ht₁, allocprocInit, Ptable.setProc_of_ne _ _ hy]
    · simp only [Ptable.setProc_self]
    · simp only [ht₁, allocprocInit, Ptable.setProc_self]
    · simp only [ht₁, allocprocInit, Ptable.setProc_self]
  | idle hlock hcpu hs =>
    have hsch := schedule_frame t
    exact h.congr hsch.1 hsch.2.2.2
  | @dispatch c p hlock hcpu hs =>
    have hsch := schedule_frame t
    exact h.update (dispatch_steady hs) (by simp)
  | resume hlock hcpu =>
    exact h.resume hi (hi.running _ _ hcpu (by rw [hlock]; simp))
  | schedReturn hlock => exact h.congr rfl rfl
  | timer hlock hp => exact h.timer
  | @assign e c p f he hp hcall =>
    exact h.kin (assign_kin he) rfl
  | yield hlock hp => exact h.yield (hi.runs hp)
  | sleep hlock hp => exact h.sleep (hi.runs hp) (by simp)
  | @wakeup chan hlock => exact h.kin (wakeup1_kin chan t) (wakeup1_wakes chan t).initproc
  | @kill pid hlock =>
    exact h.kin (kill_kin pid) (kill_initproc pid t)
  | allocFail hlock => exact h
  | alloc hlock hp hcall halloc => exact h.alloc hi hp halloc
  | @allocInit c p np hp hcall =>
    have hchild : (t.proc p).call.child = some np := congrArg Call.child hcall
    refine h.stageSet hi (hi.runs hp) (.inr (hi.embryo p np hchild))
      (fun x hx => hi.unique x p np hx hchild) (by simp) ?_ rfl (.inr (hi.embryo p np hchild)) (.inl rfl)
      (fun hs => ?_) (fun _ => h.staged p np (.inl hcall)) (by simp)
    · simp [Call.child]
    · exact h.staged p np (.inl hcall)
  | @allocFree c p np hp hcall =>
    have hchild : (t.proc p).call.child = some np := congrArg Call.child hcall
    exact h.stageSet hi (hi.runs hp) (.inr (hi.embryo p np hchild))
      (fun x hx => hi.unique x p np hx hchild) (by simp) (by simp [Call.child]) rfl (.inl rfl)
      (.inl rfl) (fun _ => h.staged p np (.inl hcall)) (by simp) (by simp)
  | @forkCopy c p np hp hcall =>
    have hchild : (t.proc p).call.child = some np := congrArg Call.child hcall
    have he := hi.embryo p np hchild
    refine h.stageSet hi (hi.runs hp) (.inr he) (fun x hx => hi.unique x p np hx hchild) (by simp)
      ?_ rfl (.inr he) (.inr rfl) (fun hs => ?_) (by simp) (by simp)
    · simp [Call.child]
    · simp [he] at hs
  | @forkFree c p np hp hcall =>
    have hchild : (t.proc p).call.child = some np := congrArg Call.child hcall
    exact h.stageSet hi (hi.runs hp) (.inr (hi.embryo p np hchild))
      (fun x hx => hi.unique x p np hx hchild) (by simp) (by simp [Call.child]) rfl (.inl rfl)
      (.inl rfl) (fun _ => h.staged p np (.inr hcall)) (by simp) (by simp)
  | forkCommit hlock hp hcall => exact h.forkCommit hi hp hcall
  | @exitFiles c p hp hcall hinit =>
    exact h.update (exitFiles_steady hinit) (by simp [hi.runs hp])
  | exit hlock hp hcall => exact h.exit (hi.runs hp) hcall
  | wait hlock hp hcall => exact h.waitLoop hi (hi.runs hp)

end Step

end OsPlayground
