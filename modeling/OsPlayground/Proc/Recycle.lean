import OsPlayground.Proc.Fifo

/-!
# What a recycled slot carries over

* `Ptable.Slots`: in every reachable table a free slot has no open files, only a process that waits
  has a channel, and the slot that a `fork` fills has what `allocproc` and `fork` put there so far.
* `Proc.Clean`: a free slot is not marked killed and records no shared page 0; not every step
  keeps it.
* `slotStep`: the steps of the table, and calls with an index out of range.
* **`recycle`**: if there are none of these, no `kill` of a run hits a free slot and no process exits
  holding shared page 0, every `fork` of the run returns a child whose fields depend on the parent
  alone. A single `fork` does so exactly if its slot is not marked and does not record page 0.
-/

namespace OsPlayground

open Lib

/-! ## The invariant -/

/-- What holds of one process. -/
structure Proc.Tidy (r : Proc) : Prop where
  files : r.state = .unused ∨ r.state = .zombie ∨ r.call = .exit → r.ofile = fun _ => none
  chan : r.chan ≠ .null → (r.context = .sleep ∨ r.context = .wait) ∧
    (r.state = .sleeping ∨ r.state = .runnable ∨ r.state = .running)

/-- What the stages of `fork` so far left in the child `r`, for a parent with the files `o`. -/
def Call.Filled (k : Call) (o : Fin NOFILE → Option ℕ) (r : Proc) : Prop :=
  match k with
  | .allocproc _ => r.ofile = fun _ => Option.none
  | .fork _ => (r.ofile = fun _ => Option.none) ∧ r.priority = NPROCQ - 1 ∧ r.widx = 0
  | .forked _ => r.ofile = o ∧ r.priority = NPROCQ - 1 ∧ r.widx = 0
  | _ => True

namespace Ptable

/-- The invariant of recycled slots. -/
structure Slots (t : Ptable) : Prop where
  tidy : ∀ p, (t.proc p).Tidy
  awake : ∀ c p, t.Runs c p → (t.proc p).chan = .null
  filled : ∀ p np, (t.proc p).call.child = some np →
    (t.proc p).call.Filled (t.proc p).ofile (t.proc np)

end Ptable

theorem Call.Filled.congr {k : Call} {o : Fin NOFILE → Option ℕ} {r r' : Proc} (h : k.Filled o r)
    (hr : r'.ofile = r.ofile ∧ r'.priority = r.priority ∧ r'.widx = r.widx) : k.Filled o r' := by
  obtain ⟨ho, hp, hw⟩ := hr
  cases k with
  | none => trivial
  | allocproc np => exact ho.trans h
  | fork np => exact ⟨ho.trans h.1, hp.trans h.2.1, hw.trans h.2.2⟩
  | forked np => exact ⟨ho.trans h.1, hp.trans h.2.1, hw.trans h.2.2⟩
  | exit => trivial

theorem Proc.Woken.tidy {r r' : Proc} (h : Woken r r') (ht : r.Tidy) : r'.Tidy := by
  have hs := h.state
  rw [h.eq]
  refine ⟨fun hf => ht.files ?_, fun hc => ?_⟩
  · rcases hf with hf | hf | hf
    · exact .inl ((h.state_iff (by decide) (by decide)).mp hf)
    · exact .inr (.inl ((h.state_iff (by decide) (by decide)).mp hf))
    · exact .inr (.inr hf)
  · obtain ⟨hctx, hst⟩ := ht.chan hc
    refine ⟨hctx, ?_⟩
    rcases hs with ⟨hs, -⟩ | ⟨-, hs⟩
    · rwa [hs]
    · exact .inr (.inl hs)

namespace Ptable

variable {t t' : Ptable} {c : ℕ} {p np : Slot}

theorem boot_slots : boot.Slots :=
  ⟨fun _ => ⟨fun _ => rfl, fun h => absurd rfl h⟩, fun _ _ _ => rfl,
    fun p np hp => by cases hp⟩

theorem Slots.chan_null (h : t.Slots) (hs : (t.proc p).state = .unused ∨
    (t.proc p).state = .embryo ∨ (t.proc p).state = .zombie) : (t.proc p).chan = .null := by
  by_contra hc
  obtain ⟨-, hst⟩ := (h.tidy p).chan hc
  rcases hs with hs | hs | hs <;> simp [hs] at hst

/-- **Frame.** No `fork` goes to its next stage. -/
theorem Slots.frame (h : t.Slots) (hi : t.Inv) (htidy : ∀ x, (t'.proc x).Tidy)
    (hawake : ∀ c x, t'.Runs c x → t.Runs c x ∧ (t'.proc x).chan = (t.proc x).chan ∨
      (t'.proc x).chan = .null)
    (hcall : ∀ x, (t'.proc x).call = (t.proc x).call ∧ (t'.proc x).ofile = (t.proc x).ofile ∨
      (t'.proc x).call.child = none)
    (hembryo : ∀ x, (t.proc x).state = .embryo → (t'.proc x).ofile = (t.proc x).ofile ∧
      (t'.proc x).priority = (t.proc x).priority ∧ (t'.proc x).widx = (t.proc x).widx) :
    t'.Slots := by
  refine ⟨htidy, fun c x hx => ?_, fun x np hnp => ?_⟩
  · rcases hawake c x hx with ⟨hr, hc⟩ | hc
    · rw [hc]
      exact h.awake c x hr
    · exact hc
  · rcases hcall x with ⟨hc, ho⟩ | hc
    · rw [hc] at hnp ⊢
      rw [ho]
      exact (h.filled x np hnp).congr (hembryo np (hi.embryo x np hnp))
    · rw [hc] at hnp
      cases hnp

theorem Slots.setProc (h : t.Slots) (hi : t.Inv) {f : Proc → Proc} (htidy : (f (t.proc p)).Tidy)
    (hawake : (f (t.proc p)).chan = (t.proc p).chan ∨ (f (t.proc p)).chan = .null)
    (hcall : (f (t.proc p)).call = (t.proc p).call ∧ (f (t.proc p)).ofile = (t.proc p).ofile ∨
      (f (t.proc p)).call.child = none)
    (hembryo : (t.proc p).state = .embryo → (f (t.proc p)).ofile = (t.proc p).ofile ∧
      (f (t.proc p)).priority = (t.proc p).priority ∧ (f (t.proc p)).widx = (t.proc p).widx) :
    (t.setProc p f).Slots := by
  refine h.frame hi (t.forall_setProc p h.tidy htidy)
    (fun c x hr => ?_) ?_ ?_
  · have hx := t.forall_setProc p (P := fun x r => r.chan = (t.proc x).chan ∨ r.chan = .null)
      (fun _ => .inl rfl) hawake x
    exact hx.imp_left fun hx => ⟨⟨hr.cpu, hr.not_scheduler, hr.not_process⟩, hx⟩
  · exact t.forall_setProc p (P := fun x r => r.call = (t.proc x).call ∧
      r.ofile = (t.proc x).ofile ∨ r.call.child = none) (fun _ => .inl ⟨rfl, rfl⟩) hcall
  · exact t.forall_setProc p (P := fun x r => (t.proc x).state = .embryo →
      r.ofile = (t.proc x).ofile ∧ r.priority = (t.proc x).priority ∧ r.widx = (t.proc x).widx)
      (fun _ _ => ⟨rfl, rfl, rfl⟩) hembryo

theorem Slots.woken (h : t.Slots) (hi : t.Inv) (hw : ∀ x, Proc.Woken (t.proc x) (t'.proc x))
    (hcpu : t'.cpu = t.cpu) (hl : t'.lock = t.lock) : t'.Slots := by
  refine h.frame hi (fun x => (hw x).tidy (h.tidy x)) (fun c x hx => .inl ⟨⟨?_, ?_, ?_⟩, ?_⟩)
    (fun x => .inl ⟨?_, ?_⟩) (fun x hx => ⟨?_, ?_, ?_⟩)
  · rw [← hcpu]
    exact hx.cpu
  · rw [← hl]
    exact hx.not_scheduler
  · rw [← hl]
    exact hx.not_process
  · rw [(hw x).eq]
  · rw [(hw x).eq]
  · rw [(hw x).eq]
  · rw [(hw x).eq]
  · rcases (hw x).state with ⟨-, hp⟩ | ⟨hs, -⟩
    · exact hp
    · rw [hs] at hx
      cases hx
  · rw [(hw x).eq]

theorem Slots.unlock (h : t.Slots) (hi : t.Inv) (hl : t.lock = .free ∨ t.lock = .process c)
    (hp : t.cpu c = some p) (hc : (t.proc p).chan = .null) : Slots { t with lock := .free } := by
  refine h.frame hi h.tidy (fun c' x hx => ?_) (fun x => .inl ⟨rfl, rfl⟩)
    (fun x _ => ⟨rfl, rfl, rfl⟩)
  by_cases hcc : c' = c
  · subst hcc
    obtain rfl : p = x := Option.some.inj (hp.symm.trans hx.cpu)
    exact .inr hc
  · refine .inl ⟨⟨hx.cpu, ?_, ?_⟩, rfl⟩
    · rcases hl with hl | hl <;> rw [hl] <;> simp
    · rcases hl with hl | hl <;> rw [hl]
      · simp
      · simpa using Ne.symm hcc

/-- The process `p` switches back to the scheduler of its CPU. -/
theorem Slots.leave (h : t.Slots) (hi : t.Inv) (hl : t.lock = .free ∨ t.lock = .process c)
    (hp : t.cpu c = some p) (hrun : (t.proc p).state = .running)
    (hx : ∀ x, x ≠ p → Proc.Woken (t.proc x) (t'.proc x)) (htidy : (t'.proc p).Tidy)
    (hcall : (t'.proc p).call = (t.proc p).call ∧ (t'.proc p).ofile = (t.proc p).ofile ∨
      (t'.proc p).call.child = none)
    (hcpu : t'.cpu = t.cpu) (hl' : t'.lock = .scheduler c) : t'.Slots := by
  refine h.frame hi (fun x => ?_) (fun c' x hr => .inl ?_) (fun x => ?_) (fun x he => ?_)
  · by_cases hxp : x = p
    · subst hxp
      exact htidy
    · exact (hx x hxp).tidy (h.tidy x)
  · have hcc : c' ≠ c := by
      rintro rfl
      exact hr.not_scheduler hl'
    have hxc : t.cpu c' = some x := hcpu ▸ hr.cpu
    have hxp : x ≠ p := by
      rintro rfl
      exact hcc (hi.inj c' c x hxc hp)
    refine ⟨⟨hxc, ?_, ?_⟩, by rw [(hx x hxp).eq]⟩
    · rcases hl with hl | hl <;> rw [hl] <;> simp
    · rcases hl with hl | hl <;> rw [hl]
      · simp
      · simpa using Ne.symm hcc
  · by_cases hxp : x = p
    · subst hxp
      exact hcall
    · rw [(hx x hxp).eq]
      exact .inl ⟨rfl, rfl⟩
  · have hxp : x ≠ p := by
      rintro rfl
      rw [hrun] at he
      cases he
    refine ⟨by rw [(hx x hxp).eq], ?_, by rw [(hx x hxp).eq]⟩
    rcases (hx x hxp).state with ⟨-, hprio⟩ | ⟨hs, -⟩
    · exact hprio
    · rw [hs] at he
      cases he

/-- A runnable process is switched into. -/
theorem Slots.dispatch (h : t.Slots) (hi : t.Inv) (hl : t.lock = .free)
    (hr : (t.proc p).state = .runnable) (hself : t'.proc p = { t.proc p with state := .running })
    (hother : ∀ x, x ≠ p → t'.proc x = t.proc x)
    (hcpu : t'.cpu = Function.update t.cpu c (some p)) (hl' : t'.lock = .process c) : t'.Slots := by
  have hsame : ∀ x, (t'.proc x).chan = (t.proc x).chan ∧ (t'.proc x).call = (t.proc x).call ∧
      (t'.proc x).ofile = (t.proc x).ofile := by
    intro x
    by_cases hxp : x = p
    · rw [hxp, hself]
      exact ⟨rfl, rfl, rfl⟩
    · rw [hother x hxp]
      exact ⟨rfl, rfl, rfl⟩
  refine h.frame hi (fun x => ?_) (fun c' x hx => .inl ⟨⟨?_, ?_, ?_⟩, (hsame x).1⟩)
    (fun x => .inl (hsame x).2) (fun x he => ?_)
  · by_cases hxp : x = p
    · rw [hxp, hself]
      refine ⟨fun hf => (h.tidy p).files ?_, fun hc => ⟨((h.tidy p).chan hc).1, .inr (.inr rfl)⟩⟩
      rcases hf with hf | hf | hf
      · cases hf
      · cases hf
      · exact .inr (.inr hf)
    · rw [hother x hxp]
      exact h.tidy x
  · have hcc : c' ≠ c := by
      rintro rfl
      exact hx.not_process hl'
    have := hx.cpu
    rwa [hcpu, Function.update_of_ne hcc] at this
  · rw [hl]
    simp
  · rw [hl]
    simp
  · have hxp : x ≠ p := by
      rintro rfl
      rw [hr] at he
      cases he
    rw [hother x hxp]
    exact ⟨rfl, rfl, rfl⟩

/-- A stage of `fork` that assigns to the slot it fills. -/
theorem Slots.stage {t₁ : Ptable} (h : t.Slots) (hi : t.Inv) (hp : (t.proc p).state = .running)
    (hnp : (t.proc np).state = .unused ∨ (t.proc np).state = .embryo)
    (howner : ∀ x, (t.proc x).call.child = some np → x = p)
    (hx : ∀ x, x ≠ np → Proc.Woken (t.proc x) (t₁.proc x)) (htidy : (t₁.proc np).Tidy)
    (hidle : (t₁.proc np).call = .none) (hcpu : t₁.cpu = t.cpu) (hl : t₁.lock = t.lock) {k : Call}
    (hk : k ≠ .exit) (hchan : (t₁.proc np).chan = .null)
    (hfill : ∀ y, k.child = some y → y = np ∧ k.Filled (t.proc p).ofile (t₁.proc np)) :
    (t₁.setProc p fun r => { r with call := k }).Slots := by
  have hnpp : np ≠ p := by
    rintro rfl
    simp [hp] at hnp
  have hother : ∀ x, x ≠ p → (t₁.setProc p fun r => { r with call := k }).proc x = t₁.proc x :=
    fun x hxp => setProc_of_ne _ _ hxp
  have hself : (t₁.setProc p fun r => { r with call := k }).proc p =
      { t₁.proc p with call := k } := setProc_self _ _ _
  have hwp := hx p hnpp.symm
  refine ⟨fun x => ?_, fun c x hr => ?_, fun x y hy => ?_⟩
  · by_cases hxp : x = p
    · subst hxp
      rw [hself]
      have ht := hwp.tidy (h.tidy x)
      have hrun : (t₁.proc x).state = .running := (hwp.state_iff (by decide) (by decide)).mpr hp
      refine ⟨fun hf => ?_, ht.chan⟩
      rcases hf with hf | hf | hf
      · exact ht.files (.inl hf)
      · exact ht.files (.inr (.inl hf))
      · exact absurd hf hk
    · rw [hother x hxp]
      by_cases hxn : x = np
      · rw [hxn]
        exact htidy
      · exact (hx x hxn).tidy (h.tidy x)
  · have hr' : t.Runs c x := ⟨hcpu ▸ hr.cpu, hl ▸ hr.not_scheduler, hl ▸ hr.not_process⟩
    by_cases hxn : x = np
    · rw [hxn, hother np hnpp]
      exact hchan
    · have hc : (t₁.proc x).chan = .null := by
        rw [(hx x hxn).eq]
        exact h.awake c x hr'
      by_cases hxp : x = p
      · subst hxp
        rw [hself]
        exact hc
      · rw [hother x hxp]
        exact hc
  · by_cases hxp : x = p
    · subst hxp
      rw [hself] at hy ⊢
      obtain ⟨rfl, hf⟩ := hfill y hy
      rw [hother y hnpp]
      have ho : (t₁.proc x).ofile = (t.proc x).ofile := by rw [hwp.eq]
      rw [← ho] at hf
      exact hf
    · rw [hother x hxp] at hy ⊢
      have hxn : x ≠ np := by
        rintro rfl
        rw [hidle] at hy
        cases hy
      rw [(hx x hxn).eq] at hy ⊢
      dsimp only at hy ⊢
      have hyn : y ≠ np := by
        rintro rfl
        exact hxp (howner x hy)
      have he := hi.embryo x y hy
      have hyp : y ≠ p := by
        rintro rfl
        rw [hp] at he
        cases he
      rw [hother y hyp]
      refine (h.filled x y hy).congr ⟨by rw [(hx y hyn).eq], ?_, by rw [(hx y hyn).eq]⟩
      rcases (hx y hyn).state with ⟨-, hprio⟩ | ⟨hs, -⟩
      · exact hprio
      · rw [hs] at he
        cases he

end Ptable

/-! ## Every step keeps it -/

section Step

variable {t t' : Ptable} {c : ℕ} {p np : Slot} {e : Event}

theorem sleep_slots (h : t.Slots) (hi : t.Inv) (hl : t.lock = .free ∨ t.lock = .process c)
    (hp : t.cpu c = some p) (hrun : (t.proc p).state = .running) {chan : Chan} {ctx : Context}
    (hctx : ctx = .sleep ∨ ctx = .wait) : (sleep c p chan ctx t).Slots := by
  refine h.leave hi hl hp hrun (fun x hx => ?_) ?_ (.inl ?_) rfl rfl
  · simp only [sleep, sched, Ptable.setProc_of_ne _ _ hx]
    exact .refl _
  · simp only [sleep, sched, Ptable.setProc_self]
    refine ⟨fun hf => (h.tidy p).files ?_, fun _ => ⟨hctx, .inl rfl⟩⟩
    rcases hf with hf | hf | hf
    · cases hf
    · cases hf
    · exact .inr (.inr hf)
  · simp [sleep, sched]

theorem yield_slots (h : t.Slots) (hi : t.Inv) (hl : t.lock = .free)
    (hp : t.Runs c p) : (yield c p t).Slots := by
  have hrun := hi.runs hp
  have hnull := h.awake c p hp
  refine h.leave hi (.inl hl) hp.cpu hrun (fun x hx => ?_) ?_ (.inl ?_) (qpush_other p _).2.1 rfl
  · simp only [yield, sched, Ptable.setProc_of_ne _ _ hx]
    refine .of_relinked (.trans ?_ (qpush_relinked p x _))
    rw [Ptable.setProc_of_ne _ _ hx, Ptable.setProc_of_ne _ _ hx]
    exact .refl _
  · simp only [yield, sched, Ptable.setProc_self]
    rw [qpush_relinked p p _, Ptable.setProc_self, Ptable.setProc_self]
    refine ⟨fun hf => (h.tidy p).files ?_, fun hc => absurd hnull hc⟩
    rcases hf with hf | hf | hf
    · cases hf
    · cases hf
    · exact .inr (.inr hf)
  · simp only [yield, sched, Ptable.setProc_self]
    rw [qpush_relinked p p _, Ptable.setProc_self, Ptable.setProc_self]
    exact ⟨rfl, rfl⟩

theorem waitLoop_slots (h : t.Slots) (hi : t.Inv) (hl : t.lock = .free ∨ t.lock = .process c)
    (hp : t.cpu c = some p) (hrun : (t.proc p).state = .running) (hc : (t.proc p).chan = .null) :
    (waitLoop c p t).1.Slots := by
  unfold waitLoop
  rcases hz : zombieChild p t with _ | z
  · dsimp only
    split_ifs
    · exact h.unlock hi hl hp hc
    · exact sleep_slots h hi hl hp hrun (.inr rfl)
  · have hzs := (zombieChild_spec hz).2
    have hzp : p ≠ z := by
      rintro rfl
      rw [hrun] at hzs
      cases hzs
    have hr : (reap z t).Slots := by
      refine h.setProc hi ⟨fun _ => (h.tidy z).files (.inr (.inl hzs)), fun hc' => ?_⟩ (.inl rfl)
        (.inl ⟨rfl, rfl⟩) fun _ => ⟨rfl, rfl, rfl⟩
      exact absurd (h.chan_null (.inr (.inr hzs))) hc'
    have hri : (reap z t).Inv :=
      hi.setIdle (.inr hzs) (fun x hx => Ptable.same_setProc hx)
        (by rw [reap, Ptable.setProc_self]) rfl rfl
    exact hr.unlock hri hl hp (by rw [reap, Ptable.setProc_of_ne _ _ hzp, hc])

theorem resume_slots (h : t.Slots) (hi : t.Inv) (hl : t.lock = .process c) (hp : t.cpu c = some p) :
    (resume c p t).Slots := by
  have hrun := hi.running c p hp (by rw [hl]; simp)
  have hch : (t.setProc p fun r => { r with chan := .null }).Slots :=
    h.setProc hi ⟨(h.tidy p).files, fun hc => absurd rfl hc⟩ (.inr rfl) (.inl ⟨rfl, rfl⟩)
      fun _ => ⟨rfl, rfl, rfl⟩
  have hci : (t.setProc p fun r => { r with chan := .null }).Inv := hi.setProc rfl rfl (.inr rfl)
  -- outside `sleep` a process has no channel
  have hnull : ((t.proc p).context = .forkret ∨ (t.proc p).context = .yield) →
      (t.proc p).chan = .null := by
    intro hctx
    by_contra hc
    have := ((h.tidy p).chan hc).1
    rcases hctx with hctx | hctx <;> simp [hctx] at this
  unfold resume
  cases hctx : (t.proc p).context with
  | forkret => exact h.unlock hi (.inr hl) hp (hnull (.inl hctx))
  | yield => exact h.unlock hi (.inr hl) hp (hnull (.inr hctx))
  | sleep => exact hch.unlock hci (.inr hl) hp (by simp)
  | wait => exact waitLoop_slots hch hci (.inr hl) hp (by simp [hrun]) (by simp)

theorem timer_slots (h : t.Slots) (hi : t.Inv) (hl : t.lock = .free) (hp : t.Runs c p) :
    (timer c p t).Slots := by
  have ht : (t.setProc p fun r =>
      { r with timepiece := (r.timepiece + (2 ^ 32 - 1)) % 2 ^ 32 }).Slots :=
    h.setProc hi ⟨(h.tidy p).files, (h.tidy p).chan⟩ (.inl rfl) (.inl ⟨rfl, rfl⟩)
      fun _ => ⟨rfl, rfl, rfl⟩
  have hti : (t.setProc p fun r =>
      { r with timepiece := (r.timepiece + (2 ^ 32 - 1)) % 2 ^ 32 }).Inv :=
    hi.setProc rfl rfl (.inr rfl)
  unfold timer
  dsimp only
  split_ifs
  · exact yield_slots ht hti hl ⟨hp.cpu, hp.not_scheduler, hp.not_process⟩
  · exact ht
  · exact h

theorem exit_slots (h : t.Slots) (hi : t.Inv) (hl : t.lock = .free) (hp : t.Runs c p)
    (hcall : (t.proc p).call = .exit) : (exit c p t).Slots := by
  obtain ⟨t₁, hw, he⟩ := exit_spec c p t
  have h₁ : t₁.Slots := h.woken hi hw.proc hw.cpu hw.lock
  have hi₁ := hi.wakes hw
  have hp₁ : t₁.Runs c p :=
    ⟨hw.cpu ▸ hp.cpu, hw.lock ▸ hp.not_scheduler, hw.lock ▸ hp.not_process⟩
  have hnull := h₁.awake c p hp₁
  have hfiles : (t₁.proc p).ofile = fun _ => none :=
    (h₁.tidy p).files (.inr (.inr (by rw [(hw.proc p).call_eq, hcall])))
  rw [he]
  refine h₁.leave hi₁ (.inl (hw.lock.trans hl)) hp₁.cpu (hi₁.runs hp₁) (fun x hx => ?_) ?_ (.inr ?_)
    rfl rfl
  · simp only [sched, Ptable.setProc_of_ne _ _ hx]
    exact .refl _
  · simp only [sched, Ptable.setProc_self]
    exact ⟨fun _ => hfiles, fun hc => absurd hnull hc⟩
  · simp only [sched, Ptable.setProc_self]
    rfl

theorem kill_slots (h : t.Slots) (hi : t.Inv) (pid : ℤ) : (kill pid t).1.Slots := by
  rcases hk : killed? pid t with _ | p
  · rw [kill, hk]
    exact h
  · rw [kill_eq hk]
    have h₁ : (t.setProc p fun r => { r with killed := true }).Slots :=
      h.setProc hi ⟨(h.tidy p).files, (h.tidy p).chan⟩ (.inl rfl) (.inl ⟨rfl, rfl⟩)
        fun _ => ⟨rfl, rfl, rfl⟩
    have hi₁ : (t.setProc p fun r => { r with killed := true }).Inv := hi.setProc rfl rfl (.inr rfl)
    exact h₁.woken hi₁ (setRunnable_woken _ p) rfl rfl

/-- A stage of `fork` before the slot becomes runnable. -/
theorem stage_slots (h : t.Slots) (hi : t.Inv) (hp : t.Runs c p)
    (hchild : (t.proc p).call.child = some np) {f : Proc → Proc}
    (hfiles : (f (t.proc np)).state = .unused ∨ (f (t.proc np)).state = .zombie →
      (f (t.proc np)).ofile = fun _ => none)
    (hcall : (f (t.proc np)).call = (t.proc np).call) (hchan : (f (t.proc np)).chan = (t.proc np).chan)
    {k : Call} (hk : k ≠ .exit)
    (hfill : ∀ y, k.child = some y → y = np ∧ k.Filled (t.proc p).ofile (f (t.proc np))) :
    ((t.setProc np f).setProc p fun r => { r with call := k }).Slots := by
  have he := hi.embryo p np hchild
  have hnull := h.chan_null (.inr (.inl he))
  have hnone := hi.idle np (.inr (.inl he))
  refine h.stage hi (hi.runs hp) (.inr he) (fun x hx => hi.unique x p np hx hchild) (fun x hx => ?_)
    ?_ ?_ ?_ ?_ hk ?_ ?_
  · rw [Ptable.setProc_of_ne _ _ hx]
    exact .refl _
  · rw [Ptable.setProc_self]
    refine ⟨fun hf => hfiles ?_, fun hc => absurd (hchan.trans hnull) hc⟩
    rcases hf with hf | hf | hf
    · exact .inl hf
    · exact .inr hf
    · rw [hcall, hnone] at hf
      cases hf
  · rw [Ptable.setProc_self, hcall, hnone]
  · rw [Ptable.setProc_cpu]
  · rw [Ptable.setProc_lock]
  · rw [Ptable.setProc_self, hchan, hnull]
  · rw [Ptable.setProc_self]
    exact hfill

/-- The slot of `userinit` goes from unused to runnable in one step. -/
theorem userinit_slots {t₁ : Ptable} (h : t.Slots) (hi : t.Inv) (hun : (t.proc p).state = .unused)
    (hs : (t₁.proc p).state = .runnable) (hcall : (t₁.proc p).call = (t.proc p).call)
    (hchan : (t₁.proc p).chan = (t.proc p).chan) (hother : ∀ x, x ≠ p → t₁.proc x = t.proc x)
    (hcpu : t₁.cpu = t.cpu) (hl : t₁.lock = t.lock) : (qpush p t₁).Slots := by
  have hnone := hi.idle p (.inl hun)
  have hnull := h.chan_null (.inl hun)
  have hi₁ : t₁.Inv := by
    refine hi.setIdle (.inl hun) (fun x hx => ?_) hcall hcpu hl
    unfold Ptable.Same
    rw [hother x hx]
    exact ⟨rfl, rfl⟩
  have h₁ : t₁.Slots := by
    refine h.frame hi (fun x => ?_) (fun c x hx => .inl ⟨⟨hcpu ▸ hx.cpu, hl ▸ hx.not_scheduler,
      hl ▸ hx.not_process⟩, ?_⟩) (fun x => ?_) (fun x he => ?_)
    · by_cases hxp : x = p
      · subst hxp
        refine ⟨fun hf => ?_, fun hc => absurd (hchan.trans hnull) hc⟩
        rw [hs, hcall, hnone] at hf
        simp at hf
      · rw [hother x hxp]
        exact h.tidy x
    · by_cases hxp : x = p
      · rw [hxp, hchan]
      · rw [hother x hxp]
    · by_cases hxp : x = p
      · rw [hxp, hcall, hnone]
        exact .inr rfl
      · rw [hother x hxp]
        exact .inl ⟨rfl, rfl⟩
    · have hxp : x ≠ p := by
        rintro rfl
        rw [hun] at he
        cases he
      rw [hother x hxp]
      exact ⟨rfl, rfl, rfl⟩
  exact h₁.woken hi₁ (fun x => .of_relinked (qpush_relinked p x t₁)) (qpush_other p t₁).2.1
    (qpush_other p t₁).1

theorem forkCommit_child (np : Slot) (t : Ptable) : ∃ n tp, (forkCommit np t).proc np =
    { t.proc np with
      state := .runnable, next := n, timepiece := tp
      sharedrec := fun i => if 1 ≤ i ∧ i < MAXSHAREDPG then false else (t.proc np).sharedrec i } := by
  have h := qpush_relinked np np (t.setProc np fun r => { r with state := .runnable })
  generalize hq : (qpush np (t.setProc np fun r => { r with state := .runnable })).proc np = r at h
  unfold Proc.Relinked at h
  rw [Ptable.setProc_self] at h
  refine ⟨r.next, r.timepiece, ?_⟩
  simp only [forkCommit, Ptable.setProc_self, hq]
  rw [h]

theorem forkCommit_other {x : Slot} (hx : x ≠ np) (t : Ptable) :
    Proc.Woken (t.proc x) ((forkCommit np t).proc x) := by
  simp only [forkCommit, Ptable.setProc_of_ne _ _ hx]
  refine .of_relinked (.trans ?_ (qpush_relinked np x _))
  rw [Ptable.setProc_of_ne _ _ hx]
  exact .refl _

theorem schedReturn_slots (h : t.Slots) (hi : t.Inv) (hl : t.lock = .scheduler c) :
    ({ t with cpu := Function.update t.cpu c none, lock := .free } : Ptable).Slots := by
  refine h.frame hi h.tidy (fun c' x hx => .inl ⟨?_, rfl⟩) (fun x => .inl ⟨rfl, rfl⟩)
    (fun x _ => ⟨rfl, rfl, rfl⟩)
  have hcx := hx.cpu
  dsimp only at hcx
  have hcc : c' ≠ c := by
    rintro rfl
    simp at hcx
  rw [Function.update_of_ne hcc] at hcx
  exact ⟨hcx, by rw [hl]; simpa using Ne.symm hcc, by rw [hl]; simp⟩

theorem assign_slots {f : Proc → Proc} (h : t.Slots) (hi : t.Inv) (he : e.assigned = some (c, f))
    (hp : t.Runs c p) (hcall : (t.proc p).call = .none) : (t.setProc p f).Slots := by
  obtain ⟨k, s, o, w, hf⟩ := assigned_spec he (t.proc p)
  have hrun := hi.runs hp
  refine h.setProc hi ?_ (.inl (by rw [hf])) (.inr (by rw [hf, hcall]; rfl)) fun he' => ?_
  · rw [hf]
    refine ⟨fun hf' => ?_, (h.tidy p).chan⟩
    simp [hrun, hcall] at hf'
  · rw [hrun] at he'
    cases he'

theorem alloc_slots {t₁ : Ptable} (h : t.Slots) (hi : t.Inv) (hp : t.Runs c p)
    (halloc : allocproc t = some (np, t₁)) :
    (t₁.setProc p fun r => { r with call := .allocproc np }).Slots := by
  obtain ⟨hun, ht₁⟩ := allocproc_spec halloc
  have hnp : t₁.proc np = { t.proc np with state := .embryo, pid := t.nextpid } := by
    rw [ht₁, Ptable.setProc_self]
  refine h.stage hi (hi.runs hp) (.inl hun) (fun x hx => ?_) (fun x hx => ?_) ?_ ?_ ?_ ?_ (by simp) ?_
    (fun y hy => ⟨(Option.some.inj hy).symm, ?_⟩)
  · have := hi.embryo x _ hx
    rw [hun] at this
    cases this
  · rw [ht₁]
    dsimp only
    rw [Ptable.setProc_of_ne _ _ hx]
    exact .refl _
  · rw [hnp]
    exact ⟨fun _ => (h.tidy np).files (.inl hun), fun hc => absurd (h.chan_null (.inl hun)) hc⟩
  · rw [hnp]
    exact hi.idle np (.inl hun)
  · rw [ht₁, Ptable.setProc_cpu]
  · rw [ht₁, Ptable.setProc_lock]
  · rw [hnp]
    exact h.chan_null (.inl hun)
  · rw [hnp]
    exact (h.tidy np).files (.inl hun)

theorem forkCopy_slots (h : t.Slots) (hi : t.Inv) (hp : t.Runs c p)
    (hcall : (t.proc p).call = .fork np) :
    ((forkCopy p np t).setProc p fun r => { r with call := .forked np }).Slots := by
  have hchild : (t.proc p).call.child = some np := congrArg Call.child hcall
  have hf := h.filled p np hchild
  rw [hcall] at hf
  have ho : ∀ fd, (if (t.proc p).ofile fd ≠ none then (t.proc p).ofile fd
      else (t.proc np).ofile fd) = (t.proc p).ofile fd := by
    intro fd
    by_cases hfd : (t.proc p).ofile fd = none
    · rw [if_neg (by simpa using hfd), hf.1, hfd]
    · rw [if_pos hfd]
  have he := hi.embryo p np hchild
  refine stage_slots h hi hp hchild (fun hs => ?_) rfl rfl (by simp) fun y hy =>
    ⟨(Option.some.inj hy).symm, funext ho, hf.2.1, hf.2.2⟩
  simp [he] at hs

theorem forkCommit_slots (h : t.Slots) (hi : t.Inv) (hp : t.Runs c p)
    (hcall : (t.proc p).call = .forked np) :
    ((forkCommit np t).setProc p fun r => { r with call := .none }).Slots := by
  have hchild : (t.proc p).call.child = some np := congrArg Call.child hcall
  have he := hi.embryo p np hchild
  have hnull := h.chan_null (.inr (.inl he))
  have hnone := hi.idle np (.inr (.inl he))
  obtain ⟨n, tp, hself⟩ := forkCommit_child np t
  refine h.stage hi (hi.runs hp) (.inr he) (fun x hx => hi.unique x p np hx hchild)
    (fun x hx => forkCommit_other hx t) ?_ ?_ ?_ ?_ (by simp) ?_
    (fun y hy => by cases hy)
  · rw [hself]
    refine ⟨fun hf => ?_, fun hc => absurd hnull hc⟩
    rcases hf with hf | hf | hf
    · cases hf
    · cases hf
    · rw [hnone] at hf
      cases hf
  · rw [hself, hnone]
  · exact (qpush_other np _).2.1
  · exact (qpush_other np _).1
  · rw [hself, hnull]

/-- **Every step keeps the invariant.** -/
theorem slots_step (h : t.Slots) (hi : t.Inv) (hstep : step e t = some t') : t'.Slots := by
  cases step_moves hstep with
  | @userinit p t₁ hlock hinit halloc =>
    obtain ⟨hun, ht₁⟩ := allocproc_spec halloc
    refine userinit_slots h hi hun ?_ ?_ ?_ (fun x hx => ?_) ?_ ?_
    · simp only [Ptable.setProc_self]
    · simp only [ht₁, allocprocInit, Ptable.setProc_self]
    · simp only [ht₁, allocprocInit, Ptable.setProc_self]
    · simp only [ht₁, allocprocInit, Ptable.setProc_of_ne _ _ hx]
    · simp only [ht₁, allocprocInit, Ptable.setProc_cpu]
    · simp only [ht₁, allocprocInit, Ptable.setProc_lock]
  | idle hlock hcpu hs =>
    have hsch := schedule_frame t
    exact h.woken hi (fun x => by rw [hsch.1]; exact .refl _) hsch.2.1 hsch.2.2.1
  | @dispatch c p hlock hcpu hs =>
    have hsch := schedule_frame t
    refine h.dispatch hi hlock (schedule_runnable hs) ?_ (fun x hx => ?_) ?_ rfl
    · rw [Ptable.setProc_self, hsch.1]
    · simp only [Ptable.setProc_of_ne _ _ hx, hsch.1]
    · rw [hsch.2.1]
  | resume hlock hcpu => exact resume_slots h hi hlock hcpu
  | schedReturn hlock => exact schedReturn_slots h hi hlock
  | timer hlock hp => exact timer_slots h hi hlock hp
  | assign he hp hcall => exact assign_slots h hi he hp hcall
  | yield hlock hp => exact yield_slots h hi hlock hp
  | sleep hlock hp => exact sleep_slots h hi (.inl hlock) hp.cpu (hi.runs hp) (.inl rfl)
  | @wakeup chan hlock =>
    have hw := wakeup1_wakes chan t
    exact h.woken hi hw.proc hw.cpu hw.lock
  | kill hlock => exact kill_slots h hi _
  | allocFail hlock => exact h
  | alloc hlock hp hcall halloc => exact alloc_slots h hi hp halloc
  | @allocInit c p np hp hcall =>
    have hchild : (t.proc p).call.child = some np := congrArg Call.child hcall
    have hf := h.filled p np hchild
    rw [hcall] at hf
    exact stage_slots h hi hp hchild (f := fun r =>
      { r with context := .forkret, priority := NPROCQ - 1, widx := 0 }) (fun _ => hf) rfl rfl (by simp)
      fun y hy => ⟨(Option.some.inj hy).symm, hf, rfl, rfl⟩
  | @allocFree c p np hp hcall =>
    have hchild : (t.proc p).call.child = some np := congrArg Call.child hcall
    have hf := h.filled p np hchild
    rw [hcall] at hf
    exact stage_slots h hi hp hchild (f := fun r => { r with state := .unused }) (fun _ => hf) rfl
      rfl (by simp) fun y hy => by cases hy
  | forkCopy hp hcall => exact forkCopy_slots h hi hp hcall
  | @forkFree c p np hp hcall =>
    have hchild : (t.proc p).call.child = some np := congrArg Call.child hcall
    have hf := h.filled p np hchild
    rw [hcall] at hf
    exact stage_slots h hi hp hchild (f := fun r => { r with state := .unused }) (fun _ => hf.1) rfl
      rfl (by simp) fun y hy => by cases hy
  | forkCommit hlock hp hcall => exact forkCommit_slots h hi hp hcall
  | @exitFiles c p hp hcall hinit =>
    have hrun := hi.runs hp
    refine h.setProc hi ⟨fun _ => rfl, (h.tidy p).chan⟩ (.inl rfl) (.inr rfl) fun he' => ?_
    rw [hrun] at he'
    cases he'
  | exit hlock hp hcall => exact exit_slots h hi hlock hp hcall
  | wait hlock hp hcall =>
    exact waitLoop_slots h hi (.inl hlock) hp.cpu (hi.runs hp) (h.awake _ _ hp)

theorem slots_run {es : List Event} (h : run step es boot = some t) : t.Inv ∧ t.Slots :=
  run_inv (I := fun t => t.Inv ∧ t.Slots)
    (fun _ _ _ h hs => ⟨inv_step h.1 hs, slots_step h.2 h.1 hs⟩)
    ⟨Ptable.boot_inv, Ptable.boot_slots⟩ h

end Step

/-! ## Clean slots -/

/-- What a free slot must not carry over to the next process. -/
structure Proc.Clean (r : Proc) : Prop where
  killed : r.state = .unused ∨ r.state = .embryo → r.killed = false
  page : r.state = .unused ∨ r.state = .embryo ∨ r.state = .zombie → r.sharedrec 0 = false

/-- A step of the table, or a call of `getshared` or `releaseshared` with an index that is out of
range: it can write a byte outside `sharedrec`, and the table may be anything after it. -/
inductive SlotEvent
  | step (e : Event)
  | outside (c idx : ℕ) (t : Ptable)

/-- One step; neither `getshared` nor `releaseshared` checks its index. -/
def slotStep : SlotEvent → Ptable → Option Ptable
  | .step e, t => step e t
  | .outside c idx t', t =>
    if MAXSHAREDPG ≤ idx ∧ (t.caller c).isSome = true then some t' else none

/-- The event hits no free slot with `kill`, and no process exits holding shared page 0. -/
structure CleanStep (t : Ptable) (e : Event) : Prop where
  kill : ∀ pid p, e = .kill pid → killed? pid t = some p →
    (t.proc p).state ≠ .unused ∧ (t.proc p).state ≠ .embryo
  exit : ∀ c p, e = .exit c → t.cpu c = some p → (t.proc p).sharedrec 0 = false

/-- The same, and the index of a call is in range. -/
def SlotEvent.Clean (t : Ptable) : SlotEvent → Prop
  | .step e => CleanStep t e
  | .outside _ _ _ => False

/-- What `fork` should return: apart from the files, which are the parent's, it is the same for
every parent, slot and history. -/
structure Proc.Fresh (r parent : Proc) : Prop where
  state : r.state = .runnable
  killed : r.killed = false
  chan : r.chan = .null
  sharedrec : ∀ i < MAXSHAREDPG, r.sharedrec i = false
  priority : r.priority = NPROCQ - 1
  widx : r.widx = 0
  ofile : r.ofile = parent.ofile

/-- A `fork` that makes its child runnable returns a fresh one. -/
def ForksFresh (t : Ptable) (e : SlotEvent) (t' : Ptable) : Prop :=
  ∀ c p np, e = .step (.forkCommit c) → t.cpu c = some p → (t.proc p).call = .forked np →
    (t'.proc np).Fresh (t'.proc p)

section Clean

variable {t t' : Ptable} {c : ℕ} {p np : Slot} {e : Event}

theorem Proc.Clean.of_live {r : Proc}
    (h : r.state = .sleeping ∨ r.state = .runnable ∨ r.state = .running) : r.Clean := by
  constructor <;> intro hs <;> rcases h with h | h | h <;> simp [h] at hs

theorem Proc.Woken.clean {r r' : Proc} (h : Woken r r') (hc : r.Clean) : r'.Clean := by
  have hu := h.state_iff (s := .unused) (by decide) (by decide)
  have he := h.state_iff (s := .embryo) (by decide) (by decide)
  have hz := h.state_iff (s := .zombie) (by decide) (by decide)
  refine ⟨fun hs => ?_, fun hs => ?_⟩
  · rw [hu, he] at hs
    rw [h.eq]
    exact hc.killed hs
  · rw [hu, he, hz] at hs
    rw [h.eq]
    exact hc.page hs

theorem clean_setProc (h : ∀ x, (t.proc x).Clean) {f : Proc → Proc}
    (hf : (f (t.proc p)).Clean) : ∀ x, ((t.setProc p f).proc x).Clean :=
  t.forall_setProc p h hf

theorem sleep_clean (h : ∀ x, (t.proc x).Clean) (chan : Chan) (ctx : Context) :
    ∀ x, ((sleep c p chan ctx t).proc x).Clean := by
  unfold sleep sched
  dsimp only
  refine clean_setProc (clean_setProc h ?_) ?_
  · exact .of_live (.inl rfl)
  · exact .of_live (.inl (by simp))

theorem waitLoop_clean (h : ∀ x, (t.proc x).Clean) : ∀ x, ((waitLoop c p t).1.proc x).Clean := by
  unfold waitLoop
  rcases hz : zombieChild p t with _ | z
  · dsimp only
    split_ifs
    · exact h
    · exact sleep_clean h _ _
  · have hzs := (zombieChild_spec hz).2
    unfold reap
    dsimp only
    refine clean_setProc h ?_
    exact ⟨fun _ => rfl, fun _ => (h z).page (.inr (.inr hzs))⟩

theorem yield_clean (h : ∀ x, (t.proc x).Clean) : ∀ x, ((yield c p t).proc x).Clean := by
  unfold yield sched
  dsimp only
  refine clean_setProc (fun x => ?_) ?_
  · refine Proc.Woken.clean (.of_relinked (qpush_relinked p x _)) ?_
    refine clean_setProc (clean_setProc h ?_) ?_ x
    · exact .of_live (.inr (.inl rfl))
    · exact .of_live (.inr (.inl (by simp)))
  · exact .of_live (.inr (.inl (by simp)))

theorem stage_clean (h : ∀ x, (t.proc x).Clean) (hi : t.Inv) (hp : t.Runs c p)
    (he : (t.proc np).state = .embryo) {f : Proc → Proc} (hf : (f (t.proc np)).Clean) (k : Call) :
    ∀ x, (((t.setProc np f).setProc p fun r => { r with call := k }).proc x).Clean := by
  have hrun := hi.runs hp
  have hne : p ≠ np := by
    rintro rfl
    rw [hrun] at he
    cases he
  refine clean_setProc (clean_setProc h hf) (.of_live (.inr (.inr ?_)))
  rw [Ptable.setProc_of_ne _ _ hne, hrun]

theorem userinit_clean {t₁ : Ptable} (h : ∀ x, (t.proc x).Clean)
    (halloc : allocproc t = some (p, t₁)) (x : Slot) :
    ((qpush p ({ allocprocInit p t₁ with initproc := some p }.setProc p
      fun r => { r with state := .runnable })).proc x).Clean := by
  obtain ⟨hun, ht₁⟩ := allocproc_spec halloc
  refine Proc.Woken.clean (.of_relinked (qpush_relinked p x _)) ?_
  by_cases hx : x = p
  · rw [hx, Ptable.setProc_self]
    exact .of_live (.inr (.inl rfl))
  · simp only [ht₁, allocprocInit, Ptable.setProc_of_ne _ _ hx]
    exact h x

theorem resume_clean (h : ∀ x, (t.proc x).Clean) (hrun : (t.proc p).state = .running) :
    ∀ x, ((resume c p t).proc x).Clean := by
  have hch : ∀ x, ((t.setProc p fun r => { r with chan := .null }).proc x).Clean :=
    clean_setProc h (.of_live (.inr (.inr hrun)))
  unfold resume
  cases (t.proc p).context with
  | forkret => exact h
  | yield => exact h
  | sleep => exact hch
  | wait => exact waitLoop_clean hch

theorem timer_clean (h : ∀ x, (t.proc x).Clean) (hrun : (t.proc p).state = .running) :
    ∀ x, ((timer c p t).proc x).Clean := by
  have ht : ∀ x, ((t.setProc p fun r =>
      { r with timepiece := (r.timepiece + (2 ^ 32 - 1)) % 2 ^ 32 }).proc x).Clean :=
    clean_setProc h (.of_live (.inr (.inr hrun)))
  unfold timer
  dsimp only
  split_ifs
  · exact yield_clean ht
  · exact ht

theorem kill_clean {pid : ℤ} (h : ∀ x, (t.proc x).Clean)
    (hk : ∀ p, killed? pid t = some p → (t.proc p).state ≠ .unused ∧ (t.proc p).state ≠ .embryo) :
    ∀ x, ((kill pid t).1.proc x).Clean := by
  rcases hp : killed? pid t with _ | p
  · rw [kill, hp]
    exact h
  · obtain ⟨hun, hem⟩ := hk p hp
    rw [kill_eq hp]
    refine fun x => (setRunnable_woken _ p x).clean (clean_setProc h ?_ x)
    refine ⟨fun hs => ?_, (h p).page⟩
    rcases hs with hs | hs
    · exact absurd hs hun
    · exact absurd hs hem

theorem alloc_clean {t₁ : Ptable} (h : ∀ x, (t.proc x).Clean) (hrun : (t.proc p).state = .running)
    (halloc : allocproc t = some (np, t₁)) :
    ∀ x, ((t₁.setProc p fun r => { r with call := .allocproc np }).proc x).Clean := by
  obtain ⟨hun, ht₁⟩ := allocproc_spec halloc
  have hne : p ≠ np := by
    rintro rfl
    rw [hrun] at hun
    cases hun
  have h₁ : ∀ x, (t₁.proc x).Clean := by
    rw [ht₁]
    dsimp only
    refine clean_setProc h ?_
    exact ⟨fun _ => (h np).killed (.inl hun), fun _ => (h np).page (.inl hun)⟩
  refine clean_setProc h₁ (.of_live (.inr (.inr ?_)))
  rw [ht₁]
  dsimp only
  rw [Ptable.setProc_of_ne _ _ hne, hrun]

theorem forkCommit_clean (h : ∀ x, (t.proc x).Clean) (hrun : (t.proc p).state = .running)
    (he : (t.proc np).state = .embryo) :
    ∀ x, (((forkCommit np t).setProc p fun r => { r with call := .none }).proc x).Clean := by
  have hne : p ≠ np := by
    rintro rfl
    rw [hrun] at he
    cases he
  obtain ⟨n, tp, hself⟩ := forkCommit_child np t
  have hw := forkCommit_other hne t
  have h₁ : ∀ x, ((forkCommit np t).proc x).Clean := by
    intro x
    by_cases hx : x = np
    · rw [hx, hself]
      exact .of_live (.inr (.inl rfl))
    · exact (forkCommit_other hx t).clean (h x)
  refine clean_setProc h₁ (.of_live (.inr (.inr ?_)))
  exact (hw.state_iff (by decide) (by decide)).mpr hrun

theorem exit_clean (h : ∀ x, (t.proc x).Clean) (hpage : (t.proc p).sharedrec 0 = false) :
    ∀ x, ((exit c p t).proc x).Clean := by
  obtain ⟨t₁, hw, he⟩ := exit_spec c p t
  rw [he]
  have h₁ : ∀ x, (t₁.proc x).Clean := fun x => (hw.proc x).clean (h x)
  have hpage₁ : (t₁.proc p).sharedrec 0 = false := by
    rw [(hw.proc p).eq]
    exact hpage
  unfold sched
  dsimp only
  refine clean_setProc (clean_setProc h₁ ?_) ?_
  · refine ⟨fun hs => ?_, fun _ => hpage₁⟩
    rcases hs with hs | hs <;> cases hs
  · rw [Ptable.setProc_self]
    refine ⟨fun hs => ?_, fun _ => hpage₁⟩
    rcases hs with hs | hs <;> cases hs

/-- **A clean step keeps the slots clean.** -/
theorem clean_step (hi : t.Inv) (hc : CleanStep t e) (h : ∀ x, (t.proc x).Clean)
    (hstep : step e t = some t') : ∀ x, (t'.proc x).Clean := by
  cases step_moves hstep with
  | userinit hlock hinit halloc => exact userinit_clean h halloc
  | idle hlock hcpu hs =>
    rw [(schedule_frame t).1]
    exact h
  | @dispatch c p hlock hcpu hs =>
    dsimp only
    refine clean_setProc (fun x => ?_) ?_
    · rw [(schedule_frame t).1]
      exact h x
    · exact .of_live (.inr (.inr rfl))
  | @resume c p hlock hcpu => exact resume_clean h (hi.running c p hcpu (by rw [hlock]; simp))
  | schedReturn hlock => exact h
  | timer hlock hp => exact timer_clean h (hi.runs hp)
  | @assign e c p f he hp hcall =>
    obtain ⟨k, s, o, w, hf⟩ := assigned_spec he (t.proc p)
    refine clean_setProc h ?_
    rw [hf]
    exact .of_live (.inr (.inr (hi.runs hp)))
  | yield hlock hp => exact yield_clean h
  | sleep hlock hp => exact sleep_clean h _ _
  | @wakeup chan hlock => exact fun x => ((wakeup1_wakes chan t).proc x).clean (h x)
  | @kill pid hlock => exact kill_clean h fun p hk => hc.kill pid p rfl hk
  | allocFail hlock => exact h
  | alloc hlock hp hcall halloc => exact alloc_clean h (hi.runs hp) halloc
  | @allocInit c p np hp hcall =>
    have he := hi.embryo p np (congrArg Call.child hcall)
    exact stage_clean h hi hp he
      ⟨fun _ => (h np).killed (.inr he), fun _ => (h np).page (.inr (.inl he))⟩ _
  | @allocFree c p np hp hcall =>
    have he := hi.embryo p np (congrArg Call.child hcall)
    exact stage_clean h hi hp he
      ⟨fun _ => (h np).killed (.inr he), fun _ => (h np).page (.inr (.inl he))⟩ _
  | @forkCopy c p np hp hcall =>
    have he := hi.embryo p np (congrArg Call.child hcall)
    exact stage_clean h hi hp he
      ⟨fun _ => (h np).killed (.inr he), fun _ => (h np).page (.inr (.inl he))⟩ _
  | @forkFree c p np hp hcall =>
    have he := hi.embryo p np (congrArg Call.child hcall)
    exact stage_clean h hi hp he
      ⟨fun _ => (h np).killed (.inr he), fun _ => (h np).page (.inr (.inl he))⟩ _
  | @forkCommit c p np hlock hp hcall =>
    exact forkCommit_clean h (hi.runs hp) (hi.embryo p np (congrArg Call.child hcall))
  | @exitFiles c p hp hcall hinit =>
    exact clean_setProc h (.of_live (.inr (.inr (hi.runs hp))))
  | @exit c p hlock hp hcall => exact exit_clean h (hc.exit c p rfl hp.cpu)
  | wait hlock hp hcall => exact waitLoop_clean h

/-! ## What `fork` returns -/

/-- A single `fork` returns a fresh child exactly if its slot is not marked killed and does not
record shared page 0; every other field is always right. -/
theorem fork_fresh_iff (hi : t.Inv) (hs : t.Slots) (hc : t.cpu c = some p)
    (hcall : (t.proc p).call = .forked np) (hstep : step (.forkCommit c) t = some t') :
    (t'.proc np).Fresh (t'.proc p) ↔
      (t.proc np).killed = false ∧ (t.proc np).sharedrec 0 = false := by
  have hchild : (t.proc p).call.child = some np := congrArg Call.child hcall
  have he := hi.embryo p np hchild
  have hf := hs.filled p np hchild
  rw [hcall] at hf
  obtain ⟨ho, hprio, hw⟩ := hf
  have hnull := hs.chan_null (.inr (.inl he))
  cases step_moves hstep with
  | assign he => cases he
  | @forkCommit _ p' np' hlock hp hcall' =>
    obtain rfl : p = p' := Option.some.inj (hc.symm.trans hp.cpu)
    rw [hcall'] at hcall
    obtain rfl : np' = np := by simpa using hcall
    have hne : np' ≠ p := by
      rintro rfl
      rw [hi.runs hp] at he
      cases he
    obtain ⟨n, tp, hself⟩ := forkCommit_child np' t
    have hpar : ((forkCommit np' t).proc p).ofile = (t.proc p).ofile := by
      rw [(forkCommit_other hne.symm t).eq]
    rw [Ptable.setProc_of_ne _ _ hne, Ptable.setProc_self, hself]
    constructor
    · intro hfr
      exact ⟨hfr.killed, hfr.sharedrec 0 (by decide)⟩
    · rintro ⟨hk, hr⟩
      refine ⟨rfl, hk, hnull, fun i hi => ?_, hprio, hw, ho.trans hpar.symm⟩
      dsimp only
      split_ifs with h1
      · rfl
      · obtain rfl : i = 0 := by omega
        exact hr

/-- **Recycling.** If every index is in range, no `kill` of a run hits a free slot and no process exits
holding shared page 0, every `fork` of the run returns a fresh child; and in any run whose indices are in
range a single `fork` does exactly if its slot is clean. -/
theorem recycle (es : List SlotEvent) :
    (Along slotStep (fun t e _ => e.Clean t) es boot → Along slotStep ForksFresh es boot) ∧
    ∀ (fs : List Event) t, run step fs boot = some t → ∀ c p np t', t.cpu c = some p →
      (t.proc p).call = .forked np → step (.forkCommit c) t = some t' →
      ((t'.proc np).Fresh (t'.proc p) ↔
        (t.proc np).killed = false ∧ (t.proc np).sharedrec 0 = false) := by
  constructor
  · intro h
    refine along_of_along (I := fun t => (t.Inv ∧ t.Slots) ∧ ∀ x, (t.proc x).Clean) ?_ ?_
      ⟨⟨Ptable.boot_inv, Ptable.boot_slots⟩, fun _ => ⟨fun _ => rfl, fun _ => rfl⟩⟩ h
    · rintro t (e | _) t' hI hc hs
      · exact ⟨⟨inv_step hI.1.1 hs, slots_step hI.1.2 hI.1.1 hs⟩, clean_step hI.1.1 hc hI.2 hs⟩
      · exact hc.elim
    · rintro t _ t' ⟨⟨hi, hsl⟩, hcl⟩ - hstep c p np rfl hc hcall
      have he := hi.embryo p np (congrArg Call.child hcall)
      exact (fork_fresh_iff hi hsl hc hcall hstep).mpr
        ⟨(hcl np).killed (.inr he), (hcl np).page (.inr (.inl he))⟩
  · intro fs t ht c p np t' hc hcall hstep
    obtain ⟨hi, hsl⟩ := slots_run ht
    exact fork_fresh_iff hi hsl hc hcall hstep

/-- A run in which init takes shared page 3 and forks: the theorem applies, and the child is fresh. -/
theorem recycle_first_fork : Along slotStep ForksFresh [.step .userinit, .step (.dispatch 0),
    .step (.resume 0), .step (.getshared 0 3), .step (.allocproc 0), .step (.allocprocInit 0 true),
    .step (.forkCopy 0 true), .step (.forkCommit 0)] boot := by
  refine (recycle _).1 (along_of_forall boot fun e he t t' => ?_)
  simp only [List.mem_cons, List.not_mem_nil, or_false] at he
  rcases he with rfl | rfl | rfl | rfl | rfl | rfl | rfl | rfl <;>
    exact ⟨fun _ _ h => (by cases h), fun _ _ h => (by cases h)⟩

/-- Init kills pid 0 and forks: the child starts out killed. And init forks a child that exits with
shared page 0 and is reaped: the next child starts out holding it. -/
theorem recycle_leaks :
    (∃ t, run step [.userinit, .dispatch 0, .resume 0, .kill 0, .allocproc 0, .allocprocInit 0 true,
      .forkCopy 0 true, .forkCommit 0] boot = some t ∧ (t.proc 1).state = .runnable ∧
        (t.proc 1).parent = some 0 ∧ (t.proc 1).killed = true ∧
        ¬ (t.proc 1).Fresh (t.proc 0)) ∧
    ∃ t, run step [.userinit, .dispatch 0, .resume 0, .allocproc 0, .allocprocInit 0 true,
      .forkCopy 0 true, .forkCommit 0, .wait 0, .schedReturn 0, .dispatch 0, .resume 0,
      .getshared 0 0, .exitFiles 0, .exit 0, .schedReturn 0, .dispatch 0, .resume 0, .allocproc 0,
      .allocprocInit 0 true, .forkCopy 0 true, .forkCommit 0] boot = some t ∧
        (t.proc 1).state = .runnable ∧ (t.proc 1).parent = some 0 ∧
        (t.proc 1).sharedrec 0 = true ∧ ¬ (t.proc 1).Fresh (t.proc 0) := by
  constructor
  · obtain ⟨t, ht, hP⟩ := (Option.any_eq_true _ _).mp (show ((run step [.userinit, .dispatch 0,
      .resume 0, .kill 0, .allocproc 0, .allocprocInit 0 true, .forkCopy 0 true,
      .forkCommit 0] boot).any fun t => (t.proc 1).state = .runnable ∧
        (t.proc 1).parent = some 0 ∧ (t.proc 1).killed = true) = true by decide +kernel)
    obtain ⟨hs, hpar, hk⟩ := of_decide_eq_true hP
    refine ⟨t, ht, hs, hpar, hk, fun hf => ?_⟩
    rw [hf.killed] at hk
    cases hk
  · obtain ⟨t, ht, hP⟩ := (Option.any_eq_true _ _).mp (show ((run step [.userinit, .dispatch 0,
      .resume 0, .allocproc 0, .allocprocInit 0 true, .forkCopy 0 true, .forkCommit 0, .wait 0,
      .schedReturn 0, .dispatch 0, .resume 0, .getshared 0 0, .exitFiles 0, .exit 0,
      .schedReturn 0, .dispatch 0, .resume 0, .allocproc 0, .allocprocInit 0 true,
      .forkCopy 0 true, .forkCommit 0] boot).any fun t => (t.proc 1).state = .runnable ∧
        (t.proc 1).parent = some 0 ∧ (t.proc 1).sharedrec 0 = true) = true by decide +kernel)
    obtain ⟨hs, hpar, hr⟩ := of_decide_eq_true hP
    refine ⟨t, ht, hs, hpar, hr, fun hf => ?_⟩
    rw [hf.sharedrec 0 (by decide)] at hr
    cases hr

end Clean

end OsPlayground
