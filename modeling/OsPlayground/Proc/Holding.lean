import OsPlayground.Proc.Inv

/-!
# Which slots hold memory

A slot of the process table has a kernel stack from `allocproc` on, and an address space from `copyuvm`
on; `wait` gives both back.

* `Ptable.holding`: what a slot has, read off the states and the calls in progress.
* `Alike`: the same slots hold the same; `Alike.of_woken`, `waitLoop_alike`, ...
* `reaped`: the child whose memory an event gives back.
* **`plain_holding`**: what the events that do not allocate do to `holding`.
-/

namespace OsPlayground

/-- What memory a slot has: none, a kernel stack, or an address space as well. -/
inductive Holding
  | none | stack | space
  deriving DecidableEq, Repr

/-- What the slot `q` has. -/
def Ptable.holding (t : Ptable) (q : Slot) : Holding :=
  if (t.proc q).state = .unused then .none
  else if (t.proc q).state ≠ .embryo ∨ ∃ p, (t.proc p).call = .forked q then .space
  else if ∃ p, (t.proc p).call = .fork q then .stack
  else .none

/-- The same slots are unused and are embryos, and each `fork` is at the same place. -/
structure Ptable.Alike (t t' : Ptable) : Prop where
  unused : ∀ x, (t'.proc x).state = .unused ↔ (t.proc x).state = .unused
  embryo : ∀ x, (t'.proc x).state = .embryo ↔ (t.proc x).state = .embryo
  fork : ∀ x q, (t'.proc x).call = .fork q ↔ (t.proc x).call = .fork q
  forked : ∀ x q, (t'.proc x).call = .forked q ↔ (t.proc x).call = .forked q

namespace Ptable

variable {t t' t'' : Ptable} {c : ℕ} {p q np : Slot} {f : Proc → Proc}

theorem Alike.holding_eq (h : t.Alike t') (q : Slot) : t'.holding q = t.holding q := by
  simp only [holding, h.unused, h.embryo, h.fork, h.forked, ne_eq]

theorem Alike.refl (t : Ptable) : t.Alike t :=
  ⟨fun _ => .rfl, fun _ => .rfl, fun _ _ => .rfl, fun _ _ => .rfl⟩

theorem Alike.trans (h : t.Alike t') (h' : t'.Alike t'') : t.Alike t'' :=
  ⟨fun x => (h'.unused x).trans (h.unused x), fun x => (h'.embryo x).trans (h.embryo x),
    fun x q => (h'.fork x q).trans (h.fork x q), fun x q => (h'.forked x q).trans (h.forked x q)⟩

theorem Alike.of_same (h : ∀ x, t.Same t' x) : t.Alike t' := by
  refine ⟨fun x => ?_, fun x => ?_, fun x q => ?_, fun x q => ?_⟩
  · rw [(h x).1]
  · rw [(h x).1]
  · rw [(h x).2]
  · rw [(h x).2]

theorem Alike.of_woken (h : ∀ x, Proc.Woken (t.proc x) (t'.proc x)) : t.Alike t' := by
  refine ⟨fun x => ?_, fun x => ?_, fun x q => ?_, fun x q => ?_⟩
  · exact (h x).state_iff (by decide) (by decide)
  · exact (h x).state_iff (by decide) (by decide)
  · rw [(h x).call_eq]
  · rw [(h x).call_eq]

/-- An assignment to one process that keeps its place in the calls and leaves it in use. -/
theorem Alike.of_setProc
    (hs : (f (t.proc p)).state = (t.proc p).state ∨ (t.proc p).state ≠ .unused ∧
      (t.proc p).state ≠ .embryo ∧ (f (t.proc p)).state ≠ .unused ∧ (f (t.proc p)).state ≠ .embryo)
    (hc : (f (t.proc p)).call = (t.proc p).call ∨ ∀ q, (t.proc p).call ≠ .fork q ∧
      (t.proc p).call ≠ .forked q ∧ (f (t.proc p)).call ≠ .fork q ∧ (f (t.proc p)).call ≠ .forked q) :
    t.Alike (t.setProc p f) := by
  refine ⟨fun x => ?_, fun x => ?_, fun x q => ?_, fun x q => ?_⟩ <;> by_cases hx : x = p
  · subst hx
    rw [setProc_self]
    rcases hs with hs | ⟨h, -, h', -⟩
    · rw [hs]
    · exact iff_of_false h' h
  · rw [setProc_of_ne _ _ hx]
  · subst hx
    rw [setProc_self]
    rcases hs with hs | ⟨-, h, -, h'⟩
    · rw [hs]
    · exact iff_of_false h' h
  · rw [setProc_of_ne _ _ hx]
  · subst hx
    rw [setProc_self]
    rcases hc with hc | hc
    · rw [hc]
    · exact iff_of_false (hc q).2.2.1 (hc q).1
  · rw [setProc_of_ne _ _ hx]
  · subst hx
    rw [setProc_self]
    rcases hc with hc | hc
    · rw [hc]
    · exact iff_of_false (hc q).2.2.2 (hc q).2.1
  · rw [setProc_of_ne _ _ hx]

theorem Alike.qpush (np : Slot) (t : Ptable) : t.Alike (OsPlayground.qpush np t) :=
  .of_same fun x => ⟨qpush_state np x t, qpush_call np x t⟩

theorem Alike.setState (hp : (t.proc p).state = .running) (hs : (f (t.proc p)).state ≠ .unused)
    (hs' : (f (t.proc p)).state ≠ .embryo) (hc : (f (t.proc p)).call = (t.proc p).call) :
    t.Alike (t.setProc p f) :=
  .of_setProc (.inr ⟨by rw [hp]; decide, by rw [hp]; decide, hs, hs'⟩) (.inl hc)

theorem lock_alike (l : Lock) (t : Ptable) : t.Alike { t with lock := l } := .of_same fun _ => ⟨rfl, rfl⟩

theorem sched_alike (ctx : Context) : t.Alike (sched c p ctx t) :=
  .of_same fun x => by
    by_cases hx : x = p
    · subst hx
      exact ⟨by rw [sched, setProc_self], by rw [sched, setProc_self]⟩
    · exact ⟨by rw [sched, setProc_of_ne _ _ hx], by rw [sched, setProc_of_ne _ _ hx]⟩

theorem sleep_alike (hp : (t.proc p).state = .running) (chan : Chan) (ctx : Context) :
    t.Alike (sleep c p chan ctx t) :=
  .trans (.setState hp (by simp) (by simp) rfl) (sched_alike ctx)

theorem yield_alike (hp : (t.proc p).state = .running) : t.Alike (yield c p t) := by
  refine .trans ?_ (sched_alike .yield)
  refine .trans ?_ (.qpush p _)
  rw [setProc_setProc]
  exact .setState hp (by simp) (by simp) rfl

theorem timer_alike (hp : (t.proc p).state = .running) : t.Alike (timer c p t) := by
  have htime : t.Alike (t.setProc p fun r =>
      { r with timepiece := (r.timepiece + (2 ^ 32 - 1)) % 2 ^ 32 }) := .of_setProc (.inl rfl) (.inl rfl)
  unfold timer
  dsimp only
  split_ifs
  · exact htime.trans (yield_alike (by rw [setProc_self]; exact hp))
  · exact htime

theorem kill_alike (pid : ℤ) : t.Alike (kill pid t).1 := by
  rcases hk : killed? pid t with _ | p
  · rw [kill, hk]
    exact .refl t
  · rw [kill_eq hk]
    have hkill : t.Alike (t.setProc p fun r => { r with killed := true }) :=
      .of_setProc (.inl rfl) (.inl rfl)
    exact hkill.trans (.of_woken fun x => setRunnable_woken _ p x)

theorem exit_alike (hp : (t.proc p).state = .running) (hcall : (t.proc p).call = .exit) :
    t.Alike (exit c p t) := by
  obtain ⟨t₁, hw, he⟩ := exit_spec c p t
  have hrun : (t₁.proc p).state = .running :=
    ((hw.proc p).state_iff (by decide) (by decide)).2 hp
  have hc : (t₁.proc p).call = .exit := by rw [(hw.proc p).call_eq, hcall]
  rw [he]
  refine .trans (.of_woken hw.proc) (.trans ?_ (sched_alike _))
  refine .of_setProc (.inr ⟨by rw [hrun]; decide, by rw [hrun]; decide, by simp, by simp⟩)
    (.inr fun q => ?_)
  rw [hc]
  simp

/-! ## The slot that a `fork` fills -/

theorem holding_unused (h : (t.proc q).state = .unused) : t.holding q = .none := if_pos h

theorem holding_live (h : (t.proc q).state ≠ .unused) (h' : (t.proc q).state ≠ .embryo) :
    t.holding q = .space := by
  rw [holding, if_neg h, if_pos (Or.inl h')]

/-- A slot that a `fork` fills has what the place of the `fork` says. -/
theorem Inv.holding_child (h : t.Inv) (hcall : (t.proc p).call.child = some np) :
    t.holding np = match (t.proc p).call with
      | .forked _ => .space
      | .fork _ => .stack
      | _ => .none := by
  have he := h.embryo p np hcall
  have honly : ∀ x, (t.proc x).call.child = some np → x = p := fun x hx => h.unique x p np hx hcall
  rw [holding, if_neg (by rw [he]; decide)]
  have hforked : ((t.proc np).state ≠ .embryo ∨ ∃ x, (t.proc x).call = .forked np) ↔
      (t.proc p).call = .forked np := by
    refine ⟨fun hor => ?_, fun hp => Or.inr ⟨p, hp⟩⟩
    obtain ⟨x, hx⟩ := hor.resolve_left (not_not.2 he)
    exact honly x (by rw [hx]; rfl) ▸ hx
  have hfork : (∃ x, (t.proc x).call = .fork np) ↔ (t.proc p).call = .fork np := by
    refine ⟨fun ⟨x, hx⟩ => ?_, fun hp => ⟨p, hp⟩⟩
    exact honly x (by rw [hx]; rfl) ▸ hx
  simp only [hforked, hfork]
  cases hc : (t.proc p).call with
  | none => simp
  | exit => simp
  | allocproc y => simp
  | fork y =>
    rw [hc] at hcall
    obtain rfl := Option.some.inj hcall
    simp
  | forked y =>
    rw [hc] at hcall
    obtain rfl := Option.some.inj hcall
    simp

theorem holding_of_ne (hs : ∀ x ≠ np, (t'.proc x).state = (t.proc x).state)
    (hc : ∀ x ≠ p, (t'.proc x).call = (t.proc x).call)
    (hp : ∀ y, (t.proc p).call.child = some y → y = np)
    (hp' : ∀ y, (t'.proc p).call.child = some y → y = np) (hq : q ≠ np) :
    t'.holding q = t.holding q := by
  have hcall : ∀ x k, k.child = some q → ((t'.proc x).call = k ↔ (t.proc x).call = k) := by
    intro x k hk
    by_cases hx : x = p
    · subst hx
      refine iff_of_false (fun h => hq ?_) fun h => hq ?_
      · exact hp' q (by rw [h, hk])
      · exact hp q (by rw [h, hk])
    · rw [hc x hx]
  simp only [holding, hs q hq, hcall _ (.forked q) rfl, hcall _ (.fork q) rfl]

/-- A step that changes the state of one slot, and the call of the process that fills it. -/
theorem holding_stage {t₁ : Ptable} {k : Call}
    (hs : ∀ x ≠ np, (t₁.proc x).state = (t.proc x).state)
    (hc : ∀ x, (t₁.proc x).call = (t.proc x).call)
    (hp : ∀ y, (t.proc p).call.child = some y → y = np) (hk : ∀ y, k.child = some y → y = np)
    (hq : q ≠ np) : (t₁.setProc p fun r => { r with call := k }).holding q = t.holding q := by
  refine holding_of_ne (p := p) (fun x hx => ?_) (fun x hx => ?_) hp (fun y hy => ?_) hq
  · by_cases hxp : x = p
    · rw [hxp, setProc_self, ← hxp]
      exact hs x hx
    · rw [setProc_of_ne _ _ hxp]
      exact hs x hx
  · rw [setProc_of_ne _ _ hx]
    exact hc x
  · rw [setProc_self] at hy
    exact hk y hy

end Ptable

/-! ## Events -/

/-- The child whose memory the event gives back. -/
def reaped : Event → Ptable → Option Slot
  | .wait c, t => (t.caller c).bind fun p => zombieChild p t
  | .resume c, t =>
    (t.cpu c).bind fun p => if (t.proc p).context = .wait then zombieChild p t else none
  | _, _ => none

/-- The event allocates no memory and maps none. -/
def Event.plain : Event → Bool
  | .userinit | .allocprocInit _ _ | .forkCopy _ _ | .getshared _ _ | .releaseshared _ _ => false
  | _ => true

section Events

variable {t t' : Ptable} {e : Event} {c : ℕ} {p q : Slot}

theorem zombieChild_chan (p r : Slot) (t : Ptable) (chan : Chan) :
    zombieChild r (t.setProc p fun r => { r with chan := chan }) = zombieChild r t := by
  unfold zombieChild
  congr 1
  funext x
  by_cases hx : x = p
  · subst hx
    rw [Ptable.setProc_self]
  · rw [Ptable.setProc_of_ne _ _ hx]

/-- `wait` reaps the child that it finds, and no other slot changes. -/
theorem waitLoop_holding (hp : (t.proc p).state = .running) (q : Slot) :
    (waitLoop c p t).1.holding q = if zombieChild p t = some q then .none else t.holding q := by
  unfold waitLoop
  rcases hz : zombieChild p t with _ | z
  · have hne : (none : Option Slot) ≠ some q := by simp
    rw [if_neg hne]
    dsimp only
    split_ifs
    · exact (Ptable.lock_alike .free t).holding_eq q
    · exact (Ptable.sleep_alike hp _ _).holding_eq q
  · by_cases hq : z = q
    · subst hq
      rw [if_pos rfl]
      refine Ptable.holding_unused ?_
      show ((reap z t).proc z).state = .unused
      rw [reap, Ptable.setProc_self]
    · rw [if_neg fun h => hq (Option.some.inj h)]
      have hsame : ∀ x, ((reap z t).proc x).call = (t.proc x).call := fun x => by
        by_cases hx : x = z
        · subst hx
          rw [reap, Ptable.setProc_self]
        · rw [reap, Ptable.setProc_of_ne _ _ hx]
      show (reap z t).holding q = t.holding q
      simp only [Ptable.holding, hsame]
      rw [reap, Ptable.setProc_of_ne _ _ (Ne.symm hq)]

theorem resume_holding (hp : (t.proc p).state = .running) (q : Slot) :
    (resume c p t).holding q =
      if (t.proc p).context = .wait ∧ zombieChild p t = some q then .none else t.holding q := by
  have hchan : t.Alike (t.setProc p fun r => { r with chan := .null }) :=
    .of_setProc (.inl rfl) (.inl rfl)
  unfold resume
  cases hc : (t.proc p).context with
  | forkret => simp [(Ptable.lock_alike .free t).holding_eq q]
  | yield => simp [(Ptable.lock_alike .free t).holding_eq q]
  | sleep =>
    rw [if_neg (by simp)]
    exact ((Ptable.lock_alike .free _).holding_eq q).trans (hchan.holding_eq q)
  | wait =>
    have hrun : ((t.setProc p fun r => { r with chan := .null }).proc p).state = .running := by
      rw [Ptable.setProc_self]
      exact hp
    simp only [true_and]
    rw [waitLoop_holding hrun, zombieChild_chan, hchan.holding_eq]

theorem dispatch_alike (hs : (schedule t).2 = some p) :
    t.Alike { (schedule t).1.setProc p fun r => { r with state := .running } with
      cpu := Function.update (schedule t).1.cpu c (some p), lock := .process c } := by
  have hrun := schedule_runnable hs
  have hsame : t.Alike (schedule t).1 :=
    .of_same fun x => by rw [Ptable.Same, (schedule_frame t).1]; exact ⟨rfl, rfl⟩
  rw [← (schedule_frame t).1] at hrun
  refine hsame.trans ?_
  have hset : (schedule t).1.Alike ((schedule t).1.setProc p fun r => { r with state := .running }) :=
    .of_setProc (.inr ⟨by rw [hrun]; decide, by rw [hrun]; decide, by simp, by simp⟩) (.inl rfl)
  exact hset.trans (.of_same fun x => ⟨rfl, rfl⟩)

/-- A slot that `allocproc` finds has nothing yet. -/
theorem alloc_holding {t₁ : Ptable} {np : Slot} (hcall : (t.proc p).call = .none)
    (halloc : allocproc t = some (np, t₁))
    (hinv : (t₁.setProc p fun r => { r with call := .allocproc np }).Inv) (q : Slot) :
    (t₁.setProc p fun r => { r with call := .allocproc np }).holding q = t.holding q := by
  obtain ⟨hun, ht₁⟩ := allocproc_spec halloc
  have hother : ∀ x ≠ np, t₁.proc x = t.proc x := fun x hx => by
    rw [ht₁]
    exact Ptable.setProc_of_ne t (fun r => { r with state := .embryo, pid := t.nextpid }) hx
  by_cases hq : q = np
  · subst hq
    have hchild : ((t₁.setProc p fun r => { r with call := .allocproc q }).proc p).call.child =
        some q := by rw [Ptable.setProc_self]; rfl
    rw [Ptable.holding_unused hun, hinv.holding_child hchild, Ptable.setProc_self]
  · refine Ptable.holding_stage (fun x hx => by rw [hother x hx]) (fun x => ?_)
      (fun y hy => ?_) (fun y hy => (Option.some.inj hy).symm) hq
    · by_cases hxn : x = np
      · subst hxn
        rw [ht₁, Ptable.setProc_self]
      · rw [hother x hxn]
    · rw [hcall] at hy
      cases hy

/-- The child that becomes runnable keeps its address space. -/
theorem forkCommit_holding {np : Slot} (h : t.Inv) (hp : t.Runs c p)
    (hcall : (t.proc p).call = .forked np) (q : Slot) :
    ((forkCommit np t).setProc p fun r => { r with call := .none }).holding q = t.holding q := by
  have hchild := congrArg Call.child hcall
  have hpnp : np ≠ p := by
    rintro rfl
    have he := h.embryo _ _ hchild
    rw [h.runs hp] at he
    cases he
  by_cases hq : q = np
  · subst hq
    have hstate : (((forkCommit q t).setProc p fun r => { r with call := .none }).proc q).state =
        .runnable := by
      rw [Ptable.setProc_of_ne _ _ hpnp, forkCommit, Ptable.setProc_self]
      simp
    rw [h.holding_child hchild, hcall, Ptable.holding_live (by rw [hstate]; decide)
      (by rw [hstate]; decide)]
  · refine Ptable.holding_stage (fun x hx => ?_) (fun x => ?_) (fun y hy => ?_)
      (fun y hy => by cases hy) hq
    · rw [forkCommit, Ptable.setProc_of_ne _ _ hx, qpush_state, Ptable.setProc_of_ne _ _ hx]
    · by_cases hxn : x = np
      · subst hxn
        rw [forkCommit, Ptable.setProc_self]
        simp
      · rw [forkCommit, Ptable.setProc_of_ne _ _ hxn, qpush_call, Ptable.setProc_of_ne _ _ hxn]
    · rw [hchild] at hy
      exact (Option.some.inj hy).symm

/-- **What an event that does not allocate does.** -/
theorem plain_holding (h : t.Inv) (hplain : e.plain = true) (hstep : step e t = some t') (q : Slot) :
    t'.holding q = if reaped e t = some q then .none else t.holding q := by
  have hnone : reaped e t = none → t'.holding q = t.holding q →
      t'.holding q = if reaped e t = some q then .none else t.holding q := fun hr hq => by
    rw [hr, if_neg (by simp), hq]
  have hkeep : t.Alike t' → reaped e t = none →
      t'.holding q = if reaped e t = some q then .none else t.holding q :=
    fun ha hr => hnone hr (ha.holding_eq q)
  cases step_moves hstep with
  | userinit => cases hplain
  | allocInit => cases hplain
  | allocFree => cases hplain
  | forkCopy => cases hplain
  | forkFree => cases hplain
  | idle hlock hcpu hs =>
    exact hkeep (.of_same fun x => by rw [Ptable.Same, (schedule_frame t).1]; exact ⟨rfl, rfl⟩) rfl
  | dispatch hlock hcpu hs => exact hkeep (dispatch_alike hs) rfl
  | @resume c p hlock hcpu =>
    rw [resume_holding (h.running c p hcpu (by rw [hlock]; simp)), reaped, hcpu]
    simp only [Option.bind_some]
    split_ifs <;> simp_all
  | schedReturn => exact hkeep (.of_same fun x => ⟨rfl, rfl⟩) rfl
  | timer hlock hp => exact hkeep (Ptable.timer_alike (h.runs hp)) rfl
  | assign he hp hcall =>
    obtain ⟨k, s, o, w, hf⟩ := assigned_spec he (t.proc _)
    refine hkeep (.of_setProc (.inl (by rw [hf])) (.inl (by rw [hf]))) ?_
    cases e <;> first | rfl | cases he
  | yield hlock hp => exact hkeep (Ptable.yield_alike (h.runs hp)) rfl
  | sleep hlock hp => exact hkeep (Ptable.sleep_alike (h.runs hp) _ _) rfl
  | wakeup hlock => exact hkeep (.of_woken (wakeup1_wakes _ t).proc) rfl
  | kill hlock => exact hkeep (Ptable.kill_alike _) rfl
  | allocFail hlock => exact hkeep (.refl t) rfl
  | alloc hlock hp hcall halloc =>
    exact hnone rfl (alloc_holding hcall halloc (inv_step h hstep) q)
  | forkCommit hlock hp hcall => exact hnone rfl (forkCommit_holding h hp hcall q)
  | exitFiles hp hcall hinit =>
    refine hkeep (.of_setProc (.inl rfl) (.inr fun x => ?_)) rfl
    rw [hcall]
    simp
  | exit hlock hp hcall => exact hkeep (Ptable.exit_alike (h.runs hp) hcall) rfl
  | @wait c p hlock hp hcall =>
    have hcaller : t.caller c = some p := Ptable.caller_eq_some.2 ⟨hp, hcall⟩
    rw [waitLoop_holding (h.runs hp), reaped, hcaller]
    rfl

theorem reaped_holding (h : reaped e t = some q) : t.holding q = .space := by
  have hz : ∃ r, zombieChild r t = some q := by
    cases e with
    | wait c =>
      obtain ⟨r, -, hr⟩ := Option.bind_eq_some_iff.1 h
      exact ⟨r, hr⟩
    | resume c =>
      obtain ⟨r, -, hr⟩ := Option.bind_eq_some_iff.1 h
      split_ifs at hr
      exact ⟨r, hr⟩
    | _ => cases h
  obtain ⟨r, hr⟩ := hz
  have hs := (zombieChild_spec hr).2
  exact Ptable.holding_live (by rw [hs]; decide) (by rw [hs]; decide)

end Events

end OsPlayground
