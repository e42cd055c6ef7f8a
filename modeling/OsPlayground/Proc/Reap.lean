import OsPlayground.Lib.Ledger
import OsPlayground.Proc.Family

/-!
# Every child is reaped once

* `Obj`, `Life`, `lifeStep`: the process table with the kernel stacks and page directories that
  `allocproc`, `fork` and `wait` allocate and free; a process itself is one more thing that is
  issued (by `allocproc`) and spent (when its pid is returned).
* `reaps`: the event ends a `wait` that found a zombie.
* `Ptable.Held`: what the slots hold; `held_steady`, `held_exit`, `held_reap`.
* **`reap_once`**: parents are live, nobody sleeps in `wait` over a zombie child, and a process ends
  in one `wait` of its parent, which frees its stack and page directory.
-/

namespace OsPlayground

open Lib

/-- What belongs to a process: its pid, `p->kstack` and `p->pgdir`. -/
inductive Obj
  | process | kstack | pgdir
  deriving DecidableEq

/-- The table, with a token for every object that a slot has allocated. -/
structure Life where
  pt : Ptable
  ledger : Ledger (Slot × Obj)
  /-- History variable: who called `fork`. -/
  creator : Slot → Option Slot

/-- Nothing is allocated. -/
def lifeBoot : Life := ⟨boot, ⟨fun _ => none, 0, []⟩, fun _ => none⟩

/-- The caller of `wait` and the zombie it reaps, if the event is the end of such a `wait`. -/
def reaps : Event → Ptable → Option (Slot × Slot)
  | .wait c, t => (t.caller c).bind fun p => (zombieChild p t).map fun z => (p, z)
  | .resume c, t => (t.cpu c).bind fun p =>
    if (t.proc p).context = .wait then
      (zombieChild p (t.setProc p fun r => { r with chan := .null })).map fun z => (p, z)
    else none
  | _, _ => none

/-- What the `wait` of the event returns, if it returns. -/
def waitReturn : Event → Ptable → Option ℤ
  | .wait c, t => (t.caller c).bind fun p => (waitLoop c p t).2
  | .resume c, t => (t.cpu c).bind fun p =>
    if (t.proc p).context = .wait then
      (waitLoop c p (t.setProc p fun r => { r with chan := .null })).2
    else none
  | _, _ => none

/-- The slot that the `fork` on the CPU `c` fills. -/
def forking (c : ℕ) (t : Ptable) : Option Slot := (t.myproc c).bind fun p => (t.proc p).call.child

/-- The calls of `kalloc`, `copyuvm`, `kfree` and `freevm` in the event, and the assignments to
`kstack` and `pgdir`. -/
def memory (e : Event) (t t' : Ptable) (l : Ledger (Slot × Obj)) : Ledger (Slot × Obj) :=
  match e with
  | .userinit =>
    match t'.initproc with
    | some p => ((l.issue (p, .process)).issue (p, .kstack)).issue (p, .pgdir)
    | none => l
  | .allocproc c =>
    match t.caller c, allocproc t with
    | some _, some (np, _) => l.issue (np, .process)
    | _, _ => l
  | .allocprocInit c ok =>
    match forking c t with
    | some np => if ok then l.issue (np, .kstack) else l.clear (np, .kstack)
    | none => l
  | .forkCopy c ok =>
    match forking c t with
    | some np =>
      if ok then l.issue (np, .pgdir)
      else ((l.clear (np, .pgdir)).spend (np, .kstack)).clear (np, .kstack)
    | none => l
  | e =>
    match reaps e t with
    | some (_, z) =>
      ((((l.spend (z, .kstack)).clear (z, .kstack)).spend (z, .pgdir)).spend (z, .process)).clear
        (z, .process)
    | none => l

/-- `np->parent = curproc`, remembered. -/
def creators (e : Event) (t : Ptable) (cr : Slot → Option Slot) : Slot → Option Slot :=
  match e with
  | .forkCopy c true =>
    match t.myproc c, forking c t with
    | some p, some np => Function.update cr np (some p)
    | _, _ => cr
  | _ => cr

/-- One step of the table, and what it allocates and frees. -/
def lifeStep (e : Event) (s : Life) : Option Life :=
  (step e s.pt).map fun t => ⟨t, memory e s.pt t s.ledger, creators e s.pt s.creator⟩

namespace Ptable

/-- Made, and not reaped. -/
def Made (t : Ptable) (p : Slot) : Prop := (t.proc p).state.Live ∨ (t.proc p).state = .zombie

/-- What the slots hold. -/
def Held (t : Ptable) : Slot × Obj → Prop
  | (p, .process) => (t.proc p).state ≠ .unused
  | (p, .kstack) => t.Made p ∨ ∃ x, (t.proc x).call = .fork p ∨ (t.proc x).call = .forked p
  | (p, .pgdir) => t.Made p ∨ ∃ x, (t.proc x).call = .forked p

variable {t t' : Ptable} {c : ℕ} {p np x z : Slot}

theorem Made.held (h : t.Made p) (o : Obj) : t.Held (p, o) := by
  cases o with
  | process =>
    intro hs
    rw [Made, hs] at h
    simp [ProcState.Live] at h
  | kstack => exact .inl h
  | pgdir => exact .inl h

/-- Nothing is gained or lost but calls that come to an end. -/
theorem held_of (hun : ∀ p, (t'.proc p).state = .unused ↔ (t.proc p).state = .unused)
    (hmade : ∀ p, t'.Made p ↔ t.Made p)
    (hcall : ∀ p, (t'.proc p).call = (t.proc p).call ∨ (t'.proc p).call.child = none) (k : Slot × Obj)
    (h : t'.Held k) : t.Held k := by
  obtain ⟨p, o⟩ := k
  cases o with
  | process => exact fun hs => h ((hun p).mpr hs)
  | kstack =>
    refine h.imp (hmade p).mp ?_
    rintro ⟨y, hy⟩
    refine ⟨y, ?_⟩
    rcases hcall y with hc | hc
    · rwa [hc] at hy
    · rcases hy with hy | hy <;> simp [hy, Call.child] at hc
  | pgdir =>
    refine h.imp (hmade p).mp ?_
    rintro ⟨y, hy⟩
    refine ⟨y, ?_⟩
    rcases hcall y with hc | hc
    · rwa [hc] at hy
    · simp [hy, Call.child] at hc

theorem not_held_boot (k : Slot × Obj) : ¬ boot.Held k := by
  obtain ⟨p, o⟩ := k
  cases o
  all_goals simp [Held, Made, boot, ProcState.Live]

theorem Steady.made_iff (h : Steady t t' x) (p : Slot) : t'.Made p ↔ t.Made p := by
  unfold Made
  rw [h.live_iff, h.dead_iff p (by simp [ProcState.Live])]

theorem Steady.unused_iff (h : Steady t t' x) (p : Slot) :
    (t'.proc p).state = .unused ↔ (t.proc p).state = .unused :=
  h.dead_iff p (by simp [ProcState.Live])

theorem held_steady (h : Steady t t' x) : ∀ k, t'.Held k → t.Held k := by
  refine held_of h.unused_iff h.made_iff fun y => ?_
  by_cases hy : y = x
  · subst hy
    exact h.call.imp id fun hc => by rw [hc.1]; rfl
  · exact .inl (h.other y hy).call

theorem exit_made (hrun : (t.proc p).state = .running) (q : Slot) :
    ((OsPlayground.exit c p t).Made q ↔ t.Made q) ∧
      (((OsPlayground.exit c p t).proc q).state = .unused ↔ (t.proc q).state = .unused) ∧
      ((OsPlayground.exit c p t).proc q).pid = (t.proc q).pid ∧
      (((OsPlayground.exit c p t).proc q).call = (t.proc q).call ∨
        ((OsPlayground.exit c p t).proc q).call.child = none) := by
  obtain ⟨t₁, hw, he⟩ := exit_spec c p t
  rw [he]
  unfold Made sched
  by_cases hq : q = p
  · subst hq
    have hpid : (t₁.proc q).pid = (t.proc q).pid := by rw [(hw.proc q).eq]
    simp [hrun, ProcState.Live, hpid, Call.child]
  · have hs := (hw.proc q).state
    have hpid : (t₁.proc q).pid = (t.proc q).pid := by rw [(hw.proc q).eq]
    simp only [setProc_of_ne _ _ hq, hpid, (hw.proc q).call_eq, true_or, and_true]
    grind [ProcState.Live]

theorem held_reap (hi : t.Inv) (hz : (t.proc z).state = .zombie) (k : Slot × Obj)
    (h : (OsPlayground.reap z t).Held k) : t.Held k ∧ k.1 ≠ z := by
  have hstate : ((OsPlayground.reap z t).proc z).state = .unused := by
    simp [OsPlayground.reap]
  have hcall : ∀ y, ((OsPlayground.reap z t).proc y).call = (t.proc y).call := fun y => by
    by_cases hy : y = z
    · subst hy
      simp [OsPlayground.reap]
    · simp [OsPlayground.reap, setProc_of_ne _ _ hy]
  have hother : ∀ y, y ≠ z → (OsPlayground.reap z t).proc y = t.proc y := fun y hy =>
    setProc_of_ne _ _ hy
  have hembryo := hi.embryo
  obtain ⟨p, o⟩ := k
  cases o
  all_goals
    unfold Held Made at *
    grind [ProcState.Live, Call.child]

theorem waitLoop_steady (hrun : (t.proc p).state = .running) (hz : zombieChild p t = none) :
    Steady t (OsPlayground.waitLoop c p t).1 p := by
  unfold OsPlayground.waitLoop
  simp only [hz]
  split_ifs
  · exact .of_kin (t := t) (u := { t with lock := .free }) (fun x => .refl (t.proc x)) rfl p
  · exact sleep_steady hrun _ _

theorem stage_apply {f : Proc → Proc} {k : Call} (hne : np ≠ p)
    (hcall : (f (t.proc np)).call = (t.proc np).call) :
    let t' := (t.setProc np f).setProc p fun r => { r with call := k }
    (∀ y, (t'.proc y).state = if y = np then (f (t.proc np)).state else (t.proc y).state) ∧
      (∀ y, (t'.proc y).call = if y = p then k else (t.proc y).call) ∧
      (∀ y, y ≠ np → (t'.proc y).pid = (t.proc y).pid) ∧
      ∀ y, y ≠ np → (t'.proc y).parent = (t.proc y).parent := by
  intro t'
  have hy : ∀ y, t'.proc y = if y = p then { t.proc p with call := k }
      else if y = np then f (t.proc np) else t.proc y := fun y => by
    simp only [t', setProc_apply, hne.symm, if_false]
  refine ⟨fun y => ?_, fun y => ?_, fun y hynp => ?_, fun y hynp => ?_⟩
  all_goals
    rw [hy]
    grind

end Ptable

/-! ## One step -/

/-- The invariant of a run: what is held has a token, and the creator is the parent or has died. -/
structure Life.Ok (s : Life) : Prop where
  inv : s.pt.Inv
  family : s.pt.Family
  ledger : s.ledger.Ok s.pt.Held
  creator : ∀ p q, (s.pt.proc p).parent = some q → s.creator p = some q ∨ s.pt.initproc = some q

/-- The process `p` lives on (or stays a zombie), with what belongs to it. -/
structure Kept (s t : Life) (p : Slot) : Prop where
  made : t.pt.Made p
  pid : (t.pt.proc p).pid = (s.pt.proc p).pid
  token : ∀ o, t.ledger.token (p, o) = s.ledger.token (p, o)

/-- The process `p`, a zombie, ends in a `wait` of its parent `q` that returns its pid: its stack
and page directory are freed there, and not before. -/
structure Reaped (e : Event) (s t : Life) (q p : Slot) : Prop where
  parent : (s.pt.proc p).parent = some q
  zombie : (s.pt.proc p).state = .zombie
  pid : waitReturn e s.pt = some (s.pt.proc p).pid
  unused : (t.pt.proc p).state = .unused
  spent : ∀ o, ∃ n, s.ledger.token (p, o) = some n ∧ n ∉ s.ledger.spent ∧ n ∈ t.ledger.spent

/-- What a step does: a process stays or is reaped. -/
structure LifeStep (e : Event) (s t : Life) : Prop where
  ok : t.Ok
  kept : ∀ p, s.pt.Made p → (∀ q, reaps e s.pt ≠ some (q, p)) → Kept s t p
  reaped : ∀ q p, reaps e s.pt = some (q, p) → Reaped e s t q p

section Step

open Ptable

variable {s t : Life} {t' : Ptable} {e : Event} {c : ℕ} {p np x z : Slot}

theorem LifeStep.steady (h : s.Ok) (hs : Steady s.pt t' x) (hi : t'.Inv) (hf : t'.Family)
    (hr : reaps e s.pt = none) : LifeStep e s ⟨t', s.ledger, s.creator⟩ := by
  have hpar : ∀ y, (t'.proc y).parent = (s.pt.proc y).parent := fun y => by
    by_cases hy : y = x
    · rw [hy, hs.parent]
    · exact (hs.other y hy).parent
  have hpid : ∀ y, (t'.proc y).pid = (s.pt.proc y).pid := fun y => by
    by_cases hy : y = x
    · rw [hy, hs.pid]
    · exact (hs.other y hy).pid
  refine ⟨⟨hi, hf, h.ledger.mono (held_steady hs), fun y q hq => ?_⟩, fun y hy _ => ?_,
    fun q y hq => ?_⟩
  · have := h.creator y q (hpar y ▸ hq)
    rwa [← hs.initproc] at this
  · exact ⟨(hs.made_iff y).mpr hy, hpid y, fun _ => rfl⟩
  · rw [hr] at hq
    cases hq

/-- The three things that belong to `z` are spent. -/
theorem ledger_reap {l : Ledger (Slot × Obj)} {held : Slot × Obj → Prop} (h : l.Ok held)
    (hz : ∀ o, held (z, o)) :
    let l' := ((((l.spend (z, .kstack)).clear (z, .kstack)).spend (z, .pgdir)).spend
      (z, .process)).clear (z, .process)
    l'.Ok (fun k => held k ∧ k.1 ≠ z) ∧ (∀ o n, l.token (z, o) = some n → n ∈ l'.spent) ∧
      ∀ p o, p ≠ z → l'.token (p, o) = l.token (p, o) := by
  have h₁ := h.spend (hz .kstack) (r := fun k => held k ∧ k ≠ (z, .kstack)) fun _ hk => hk
  have h₂ := h₁.clear (k := (z, .kstack)) fun hk => hk.2 rfl
  have h₃ := h₂.spend (k := (z, .pgdir)) ⟨hz _, by simp⟩
    (r := fun k => held k ∧ k ≠ (z, .kstack) ∧ k ≠ (z, .pgdir)) fun k hk =>
      ⟨⟨hk.1, hk.2.1⟩, hk.2.2⟩
  have h₄ := h₃.spend (k := (z, .process)) ⟨hz _, by simp, by simp⟩
    (r := fun k => held k ∧ k.1 ≠ z) fun k hk => by
      refine ⟨⟨hk.1, ?_, ?_⟩, ?_⟩
      all_goals
        rintro rfl
        exact hk.2 rfl
  refine ⟨h₄.clear fun hk => hk.2 rfl, fun o n hn => ?_, fun p o hp => ?_⟩
  · cases o
    all_goals simp [Ledger.spend, Ledger.clear, hn]
  · simp [Ledger.spend, Ledger.clear, hp]

/-- The caller `q` of `wait` finds the zombie `z`; in the table `t₁` it has perhaps cleared its
channel. -/
theorem LifeStep.reap {t₁ : Ptable} {q : Slot} (h : s.Ok) (hs : Steady s.pt t₁ q) (hi₁ : t₁.Inv)
    (hz : zombieChild q t₁ = some z) (hproc : t'.proc = (OsPlayground.reap z t₁).proc)
    (hinit : t'.initproc = t₁.initproc) (hi : t'.Inv) (hf : t'.Family)
    (hr : reaps e s.pt = some (q, z)) (hret : waitReturn e s.pt = some (t₁.proc z).pid) :
    LifeStep e s ⟨t', ((((s.ledger.spend (z, .kstack)).clear (z, .kstack)).spend
      (z, .pgdir)).spend (z, .process)).clear (z, .process), s.creator⟩ := by
  obtain ⟨hzp, hzs⟩ := zombieChild_spec hz
  have hsame : ∀ y, (t₁.proc y).parent = (s.pt.proc y).parent ∧
      (t₁.proc y).pid = (s.pt.proc y).pid := fun y => by
    by_cases hy : y = q
    · exact ⟨hy ▸ hs.parent, hy ▸ hs.pid⟩
    · exact ⟨(hs.other y hy).parent, (hs.other y hy).pid⟩
  have hzs' : (s.pt.proc z).state = .zombie :=
    (hs.dead_iff z (by simp [ProcState.Live])).mp hzs
  have hmade : s.pt.Made z := .inr hzs'
  obtain ⟨hok, hspent, htoken⟩ := ledger_reap h.ledger hmade.held
  have hother : ∀ y, y ≠ z → t'.proc y = t₁.proc y := fun y hy => by
    rw [hproc]
    exact setProc_of_ne _ _ hy
  have hself : (t'.proc z).state = .unused ∧ (t'.proc z).parent = none := by
    simp [hproc, OsPlayground.reap]
  have hheld : ∀ k, t'.Held k → (OsPlayground.reap z t₁).Held k :=
    held_of (fun y => by rw [hproc]) (fun y => by unfold Made; rw [hproc])
      fun y => .inl (by rw [hproc])
  refine ⟨⟨hi, hf, hok.mono fun k hk => ?_, fun y w hw => ?_⟩, fun y hy hn => ?_, fun w y hy => ?_⟩
  · obtain ⟨hk, hne⟩ := held_reap hi₁ hzs k (hheld k hk)
    exact ⟨held_steady hs k hk, hne⟩
  · by_cases hyz : y = z
    · rw [hyz, hself.2] at hw
      cases hw
    · rw [hother y hyz, (hsame y).1] at hw
      have := h.creator y w hw
      rwa [← hs.initproc, ← hinit] at this
  · have hyz : y ≠ z := by
      rintro rfl
      exact hn q hr
    refine ⟨?_, ?_, fun o => htoken y o hyz⟩
    · have := (hs.made_iff y).mpr hy
      unfold Made at this ⊢
      rwa [hother y hyz]
    · rw [hother y hyz, (hsame y).2]
  · rw [hr] at hy
    obtain ⟨rfl, rfl⟩ := Prod.mk.inj (Option.some.inj hy)
    refine ⟨(hsame z).1 ▸ hzp, hzs', hret.trans (by rw [(hsame z).2]), hself.1, fun o => ?_⟩
    obtain ⟨n, hn, -, hns⟩ := h.ledger.token (z, o) (hmade.held o)
    exact ⟨n, hn, hns, hspent o n hn⟩

theorem LifeStep.stage {l : Ledger (Slot × Obj)} {cr : Slot → Option Slot}
    (hnp : ¬ s.pt.Made np) (hmade : ∀ y, y ≠ np → s.pt.Made y → t'.Made y)
    (hpid : ∀ y, y ≠ np → (t'.proc y).pid = (s.pt.proc y).pid)
    (htoken : ∀ y o, y ≠ np → l.token (y, o) = s.ledger.token (y, o))
    (hi : t'.Inv) (hf : t'.Family) (hl : l.Ok t'.Held)
    (hcr : ∀ p q, (t'.proc p).parent = some q → cr p = some q ∨ t'.initproc = some q)
    (hr : reaps e s.pt = none) : LifeStep e s ⟨t', l, cr⟩ := by
  refine ⟨⟨hi, hf, hl, hcr⟩, fun y hy _ => ?_, fun q y hy => ?_⟩
  · have hne : y ≠ np := by
      rintro rfl
      exact hnp hy
    exact ⟨hmade y hne hy, hpid y hne, fun o => htoken y o hne⟩
  · rw [hr] at hy
    cases hy

theorem LifeStep.userinit (h : s.Ok) (hn : s.pt.initproc = none)
    (hun : (s.pt.proc p).state = .unused) (hinit : t'.initproc = some p)
    (hstate : ∀ y, y ≠ p → (t'.proc y).state = (s.pt.proc y).state)
    (hcall : ∀ y, (t'.proc y).call = (s.pt.proc y).call)
    (hpar : ∀ y, (t'.proc y).parent = (s.pt.proc y).parent) (hi : t'.Inv) (hf : t'.Family) :
    LifeStep .userinit s ⟨t', memory .userinit s.pt t' s.ledger, s.creator⟩ := by
  have hfree := h.family.noInit hn
  have hl := ((h.ledger.issue_or (k := (p, .process))).issue_or (k := (p, .kstack))).issue_or
    (k := (p, .pgdir))
  refine ⟨⟨hi, hf, ?_, fun y q hq => ?_⟩, fun y hy => ?_, fun q y hy => by cases hy⟩
  · simp only [memory, hinit]
    refine hl.mono fun k hk => ?_
    obtain ⟨y, o⟩ := k
    by_cases hyp : y = p
    · subst hyp
      cases o
      all_goals simp
    · refine .inl (.inl (.inl ?_))
      have := hstate y hyp
      cases o
      all_goals
        unfold Held Made at hk ⊢
        grind
  · rw [hpar, h.family.unused y (hfree y)] at hq
    cases hq
  · rw [Made, hfree y] at hy
    simp [ProcState.Live] at hy

theorem LifeStep.exit (h : s.Ok) (hrun : (s.pt.proc p).state = .running)
    (hinit : s.pt.initproc ≠ some p) (hi : (OsPlayground.exit c p s.pt).Inv)
    (hf : (OsPlayground.exit c p s.pt).Family) :
    LifeStep (.exit c) s ⟨OsPlayground.exit c p s.pt, s.ledger, s.creator⟩ := by
  have hmade := fun q => exit_made (c := c) hrun q
  refine ⟨⟨hi, hf, h.ledger.mono (held_of (fun q => (hmade q).2.1) (fun q => (hmade q).1)
    fun q => (hmade q).2.2.2), fun y q hq => ?_⟩, fun y hy _ => ?_,
    fun q y hy => by cases hy⟩
  · rw [exit_initproc]
    rw [exit_parent hinit] at hq
    split_ifs at hq
    · exact .inr hq
    · exact h.creator y q hq
  · exact ⟨(hmade y).1.mpr hy, (hmade y).2.2.1, fun _ => rfl⟩

/-- A stage of `fork` that assigns to its slot. -/
theorem LifeStep.fork {f : Proc → Proc} {k : Call} {l : Ledger (Slot × Obj)}
    {cr : Slot → Option Slot} (h : s.Ok) (hne : np ≠ p)
    (hproc : t'.proc = ((s.pt.setProc np f).setProc p fun r => { r with call := k }).proc)
    (hinit : t'.initproc = s.pt.initproc)
    (hnp : (s.pt.proc np).state = .unused ∨ (s.pt.proc np).state = .embryo)
    (hcall : (f (s.pt.proc np)).call = (s.pt.proc np).call)
    (htoken : ∀ y o, y ≠ np → l.token (y, o) = s.ledger.token (y, o))
    (hl : (∀ y, (t'.proc y).state = if y = np then (f (s.pt.proc np)).state
        else (s.pt.proc y).state) → (∀ y, (t'.proc y).call = if y = p then k
        else (s.pt.proc y).call) → l.Ok t'.Held)
    (hcr : ∀ y, y ≠ np → cr y = s.creator y)
    (hcr' : ∀ q, (f (s.pt.proc np)).parent = some q → cr np = some q ∨ s.pt.initproc = some q)
    (hi : t'.Inv) (hf : t'.Family) (hr : reaps e s.pt = none) : LifeStep e s ⟨t', l, cr⟩ := by
  obtain ⟨hst, hca, hpid, hpar⟩ := stage_apply (k := k) hne hcall
  simp only [← hproc] at hst hca hpid hpar
  refine .stage (?_ : ¬ s.pt.Made np) (fun y hy hm => ?_) hpid htoken hi hf (hl hst hca)
    (fun y q hq => ?_) hr
  · unfold Made
    grind [ProcState.Live]
  · unfold Made at hm ⊢
    rwa [hst, if_neg hy]
  · rw [hinit]
    by_cases hy : y = np
    · subst hy
      rw [hproc, setProc_of_ne _ _ hne, setProc_self] at hq
      exact hcr' q hq
    · rw [hpar y hy] at hq
      rw [hcr y hy]
      exact h.creator y q hq

theorem embryo_ne (hrun : (s.pt.proc p).state = .running)
    (he : (s.pt.proc np).state = .embryo) : np ≠ p := by
  rintro rfl
  simp [hrun] at he

theorem forking_eq (hp : s.pt.Runs c p) (hc : (s.pt.proc p).call.child = some np) :
    forking c s.pt = some np := by
  rw [forking, myproc_eq_some.mpr hp]
  exact hc

/-- A wait that was woken, or a process that goes on elsewhere. -/
theorem LifeStep.resume (h : s.Ok) (hlock : s.pt.lock = .process c) (hcpu : s.pt.cpu c = some p)
    (hi : (OsPlayground.resume c p s.pt).Inv) (hf : (OsPlayground.resume c p s.pt).Family) :
    LifeStep (.resume c) s ⟨OsPlayground.resume c p s.pt,
      memory (.resume c) s.pt (OsPlayground.resume c p s.pt) s.ledger, s.creator⟩ := by
  have hrun := h.inv.running c p hcpu (by rw [hlock]; simp)
  have hsteady : reaps (.resume c) s.pt = none → Steady s.pt (OsPlayground.resume c p s.pt) p →
      LifeStep (.resume c) s ⟨OsPlayground.resume c p s.pt,
        memory (.resume c) s.pt (OsPlayground.resume c p s.pt) s.ledger, s.creator⟩ :=
    fun hr hs => by
      simp only [memory, hr]
      exact .steady h hs hi hf hr
  by_cases hctx : (s.pt.proc p).context = .wait
  · have hchan : Steady s.pt (s.pt.setProc p fun r => { r with chan := .null }) p := chan_steady
    have hci : (s.pt.setProc p fun r => { r with chan := .null }).Inv :=
      h.inv.setProc rfl rfl (.inr rfl)
    have he : OsPlayground.resume c p s.pt =
        (waitLoop c p (s.pt.setProc p fun r => { r with chan := .null })).1 := by
      simp only [OsPlayground.resume, hctx]
    rcases hz : zombieChild p (s.pt.setProc p fun r => { r with chan := .null }) with _ | z
    · refine hsteady (by simp [reaps, hcpu, hz, hctx]) (hchan.trans ?_)
      rw [he]
      exact waitLoop_steady (by rw [setProc_self]; exact hrun) hz
    · have hr : reaps (.resume c) s.pt = some (p, z) := by simp [reaps, hcpu, hz, hctx]
      have hret : waitReturn (.resume c) s.pt =
          some ((s.pt.setProc p fun r => { r with chan := .null }).proc z).pid := by
        simp [waitReturn, hcpu, waitLoop, hz, hctx]
      have hw : OsPlayground.resume c p s.pt =
          { OsPlayground.reap z (s.pt.setProc p fun r => { r with chan := .null }) with
            lock := .free } := by
        simp [he, waitLoop, hz]
      simp only [memory, hr]
      exact .reap h hchan hci hz (by rw [hw]) (by rw [hw]; rfl) hi hf hr hret
  · refine hsteady (by simp [reaps, hcpu, hctx]) ?_
    unfold OsPlayground.resume
    cases hc : (s.pt.proc p).context with
    | forkret => exact .of_kin (u := { s.pt with lock := .free }) (fun y => .refl (s.pt.proc y)) rfl p
    | yield => exact .of_kin (u := { s.pt with lock := .free }) (fun y => .refl (s.pt.proc y)) rfl p
    | sleep => exact chan_steady.congr rfl rfl
    | wait => exact absurd hc hctx

theorem LifeStep.wait (h : s.Ok) (hp : s.pt.Runs c p) (hcall : (s.pt.proc p).call = .none)
    (hi : (waitLoop c p s.pt).1.Inv) (hf : (waitLoop c p s.pt).1.Family) :
    LifeStep (.wait c) s ⟨(waitLoop c p s.pt).1,
      memory (.wait c) s.pt (waitLoop c p s.pt).1 s.ledger, s.creator⟩ := by
  have hrun := h.inv.runs hp
  have hcaller := caller_eq_some.mpr ⟨hp, hcall⟩
  rcases hz : zombieChild p s.pt with _ | z
  · have hr : reaps (.wait c) s.pt = none := by simp [reaps, hcaller, hz]
    simp only [memory, hr]
    exact .steady h (waitLoop_steady hrun hz) hi hf hr
  · have hr : reaps (.wait c) s.pt = some (p, z) := by simp [reaps, hcaller, hz]
    have hret : waitReturn (.wait c) s.pt = some (s.pt.proc z).pid := by
      simp [waitReturn, hcaller, waitLoop, hz]
    have hw : (waitLoop c p s.pt).1 = { OsPlayground.reap z s.pt with lock := .free } := by
      simp [waitLoop, hz]
    simp only [memory, hr]
    exact .reap h (.of_kin (fun y => .refl _) rfl p) h.inv hz (by rw [hw]) (by rw [hw]; rfl) hi hf
      hr hret

theorem LifeStep.alloc {t₁ : Ptable} (h : s.Ok) (hp : s.pt.Runs c p)
    (hcall : (s.pt.proc p).call = .none) (halloc : allocproc s.pt = some (np, t₁))
    (ht' : t' = t₁.setProc p fun r => { r with call := .allocproc np })
    (hi : t'.Inv) (hf : t'.Family) :
    LifeStep (.allocproc c) s ⟨t', memory (.allocproc c) s.pt t' s.ledger, s.creator⟩ := by
  obtain ⟨hun, ht₁⟩ := allocproc_spec halloc
  have hrun := h.inv.runs hp
  have hnone := h.inv.idle np (.inl hun)
  have hne : np ≠ p := by
    rintro rfl
    simp [hrun] at hun
  have hembryo := h.inv.embryo
  have hl := h.ledger.issue_or (k := (np, .process))
  have hm : memory (.allocproc c) s.pt t' s.ledger = s.ledger.issue (np, .process) := by
    simp only [memory, caller_eq_some.mpr ⟨hp, hcall⟩, halloc]
  rw [hm]
  refine .fork h hne (f := fun r => { r with state := .embryo, pid := s.pt.nextpid })
    (k := .allocproc np) (by rw [ht', ht₁]; rfl) (by rw [ht', ht₁]; rfl) (.inl hun) rfl
    (fun y o hy => ?_) (fun hst hca => hl.mono fun k hk => ?_) (fun _ _ => rfl)
    (fun q hq => h.creator np q hq) hi hf rfl
  · simp [Ledger.issue, hy]
  · obtain ⟨y, o⟩ := k
    cases o
    all_goals
      unfold Held Made at hk ⊢
      grind [ProcState.Live, Call.child]

theorem LifeStep.allocInit (h : s.Ok) (hp : s.pt.Runs c p)
    (hcall : (s.pt.proc p).call = .allocproc np)
    (ht' : t' = (allocprocInit np s.pt).setProc p fun r => { r with call := .fork np })
    (hi : t'.Inv) (hf : t'.Family) :
    LifeStep (.allocprocInit c true) s
      ⟨t', memory (.allocprocInit c true) s.pt t' s.ledger, s.creator⟩ := by
  have hrun := h.inv.runs hp
  have hchild : (s.pt.proc p).call.child = some np := congrArg Call.child hcall
  have he := h.inv.embryo p np hchild
  have hl := h.ledger.issue_or (k := (np, .kstack))
  have hm : memory (.allocprocInit c true) s.pt t' s.ledger = s.ledger.issue (np, .kstack) := by
    simp only [memory, forking_eq hp hchild, if_true]
  rw [hm]
  refine .fork h (embryo_ne hrun he) (k := .fork np) (by rw [ht']; rfl) (by rw [ht']; rfl) (.inr he)
    rfl (fun y o hy => ?_) (fun hst hca => hl.mono fun k hk => ?_) (fun _ _ => rfl)
    (fun q hq => h.creator np q hq) hi hf rfl
  · simp [Ledger.issue, hy]
  · obtain ⟨y, o⟩ := k
    cases o
    all_goals
      unfold Held Made at hk ⊢
      grind [ProcState.Live, Call.child]

/-- `allocproc` finds no stack. -/
theorem LifeStep.allocFree (h : s.Ok) (hp : s.pt.Runs c p)
    (hcall : (s.pt.proc p).call = .allocproc np)
    (ht' : t' = (freeEmbryo np s.pt).setProc p fun r => { r with call := .none })
    (hi : t'.Inv) (hf : t'.Family) :
    LifeStep (.allocprocInit c false) s
      ⟨t', memory (.allocprocInit c false) s.pt t' s.ledger, s.creator⟩ := by
  have hrun := h.inv.runs hp
  have hchild : (s.pt.proc p).call.child = some np := congrArg Call.child hcall
  have he := h.inv.embryo p np hchild
  have huniq := fun x hx => h.inv.unique x p np hx hchild
  have hidle := h.inv.idle
  have hm : memory (.allocprocInit c false) s.pt t' s.ledger =
      s.ledger.clear (np, .kstack) := by
    simp [memory, forking_eq hp hchild]
  rw [hm]
  refine .fork h (embryo_ne hrun he) (k := .none) (by rw [ht']; rfl) (by rw [ht']; rfl) (.inr he)
    rfl (fun y o hy => ?_) (fun hst hca => (h.ledger.mono fun k hk => ?_).clear fun hk => ?_)
    (fun _ _ => rfl) (fun q hq => h.creator np q hq) hi hf rfl
  · simp [Ledger.clear, hy]
  · obtain ⟨y, o⟩ := k
    cases o
    all_goals
      unfold Held Made at hk ⊢
      grind [ProcState.Live, Call.child]
  · unfold Held Made at hk
    grind [ProcState.Live, Call.child]

theorem LifeStep.forkCopy (h : s.Ok) (hp : s.pt.Runs c p) (hcall : (s.pt.proc p).call = .fork np)
    (ht' : t' = (OsPlayground.forkCopy p np s.pt).setProc p fun r => { r with call := .forked np })
    (hi : t'.Inv) (hf : t'.Family) :
    LifeStep (.forkCopy c true) s ⟨t', memory (.forkCopy c true) s.pt t' s.ledger,
      creators (.forkCopy c true) s.pt s.creator⟩ := by
  have hrun := h.inv.runs hp
  have hchild : (s.pt.proc p).call.child = some np := congrArg Call.child hcall
  have he := h.inv.embryo p np hchild
  have hl := h.ledger.issue_or (k := (np, .pgdir))
  have hm : memory (.forkCopy c true) s.pt t' s.ledger = s.ledger.issue (np, .pgdir) := by
    simp only [memory, forking_eq hp hchild, if_true]
  have hcr : creators (.forkCopy c true) s.pt s.creator =
      Function.update s.creator np (some p) := by
    simp only [creators, forking_eq hp hchild, myproc_eq_some.mpr hp]
  rw [hm, hcr]
  refine .fork h (embryo_ne hrun he) (k := .forked np) (by rw [ht']; rfl) (by rw [ht']; rfl)
    (.inr he) rfl (fun y o hy => ?_) (fun hst hca => hl.mono fun k hk => ?_)
    (fun y hy => Function.update_of_ne hy _ _) (fun q hq => .inl ?_) hi hf rfl
  · simp [Ledger.issue, hy]
  · obtain ⟨y, o⟩ := k
    cases o
    all_goals
      unfold Held Made at hk ⊢
      grind [ProcState.Live, Call.child]
  · rw [Function.update_self, ← hq]

/-- `copyuvm` fails. -/
theorem LifeStep.forkFree (h : s.Ok) (hp : s.pt.Runs c p) (hcall : (s.pt.proc p).call = .fork np)
    (ht' : t' = (freeEmbryo np s.pt).setProc p fun r => { r with call := .none })
    (hi : t'.Inv) (hf : t'.Family) :
    LifeStep (.forkCopy c false) s
      ⟨t', memory (.forkCopy c false) s.pt t' s.ledger, s.creator⟩ := by
  have hrun := h.inv.runs hp
  have hchild : (s.pt.proc p).call.child = some np := congrArg Call.child hcall
  have he := h.inv.embryo p np hchild
  have huniq := fun x hx => h.inv.unique x p np hx hchild
  have hidle := h.inv.idle
  have hm : memory (.forkCopy c false) s.pt t' s.ledger =
      ((s.ledger.clear (np, .pgdir)).spend (np, .kstack)).clear (np, .kstack) := by
    simp [memory, forking_eq hp hchild]
  have hdir : ¬ s.pt.Held (np, .pgdir) := by
    unfold Held Made
    grind [ProcState.Live, Call.child]
  have hstack : s.pt.Held (np, .kstack) := .inr ⟨p, .inl hcall⟩
  have hl := ((h.ledger.clear hdir).spend hstack
    (r := fun k => s.pt.Held k ∧ k ≠ (np, .kstack)) fun _ hk => hk).clear
      (k := (np, .kstack)) fun hk => hk.2 rfl
  rw [hm]
  refine .fork h (embryo_ne hrun he) (k := .none) (by rw [ht']; rfl) (by rw [ht']; rfl) (.inr he)
    rfl (fun y o hy => ?_) (fun hst hca => hl.mono fun k hk => ?_) (fun _ _ => rfl)
    (fun q hq => h.creator np q hq) hi hf rfl
  · simp [Ledger.clear, Ledger.spend, hy]
  · obtain ⟨y, o⟩ := k
    cases o
    all_goals
      unfold Held Made at hk ⊢
      grind [ProcState.Live, Call.child]

/-- The child becomes runnable, with all that it holds. -/
theorem LifeStep.forkCommit (h : s.Ok) (hp : s.pt.Runs c p)
    (hcall : (s.pt.proc p).call = .forked np)
    (ht' : t' = (OsPlayground.forkCommit np s.pt).setProc p fun r => { r with call := .none })
    (hi : t'.Inv) (hf : t'.Family) :
    LifeStep (.forkCommit c) s ⟨t', s.ledger, s.creator⟩ := by
  have hrun := h.inv.runs hp
  have hidle := h.inv.idle
  have hchild : (s.pt.proc p).call.child = some np := congrArg Call.child hcall
  have he := h.inv.embryo p np hchild
  have hne := embryo_ne hrun he
  have hself : ((OsPlayground.forkCommit np s.pt).proc np).state = .runnable ∧
      ((OsPlayground.forkCommit np s.pt).proc np).parent = (s.pt.proc np).parent ∧
      ((OsPlayground.forkCommit np s.pt).proc np).call = (s.pt.proc np).call := by
    simp [OsPlayground.forkCommit]
  have hst : ∀ y, (t'.proc y).state = ((OsPlayground.forkCommit np s.pt).proc y).state := fun y => by
    rw [ht', setProc_apply]
    grind
  have hca : ∀ y, (t'.proc y).call =
      if y = p then .none else ((OsPlayground.forkCommit np s.pt).proc y).call := fun y => by
    rw [ht', setProc_apply]
    grind
  have hkin : ∀ y, y ≠ np → (t'.proc y).pid = (s.pt.proc y).pid ∧
      (t'.proc y).parent = (s.pt.proc y).parent := fun y hy => by
    have hk := forkCommit_kin hy s.pt
    rw [ht', setProc_apply]
    split_ifs with hyp
    · subst hyp
      exact ⟨hk.pid, hk.parent⟩
    · exact ⟨hk.pid, hk.parent⟩
  have hother := fun y hy => (forkCommit_kin (n := np) (y := y) hy s.pt).state
  have hcall' := fun y hy => (forkCommit_kin (n := np) (y := y) hy s.pt).call
  have hpar : (t'.proc np).parent = (s.pt.proc np).parent := by
    rw [ht', setProc_of_ne _ _ hne, hself.2.1]
  have hinit : t'.initproc = s.pt.initproc := by
    rw [ht']
    exact (qpush_other np _).2.2.2.1
  refine .stage (?_ : ¬ s.pt.Made np) (fun y hy hm => ?_) (fun y hy => (hkin y hy).1)
    (fun _ _ _ => rfl) hi hf (h.ledger.mono fun k hk => ?_) (fun y q hq => ?_) rfl
  · unfold Made
    simp [he, ProcState.Live]
  · unfold Made at hm ⊢
    rw [hst]
    grind [ProcState.Live]
  · obtain ⟨y, o⟩ := k
    cases o
    all_goals
      unfold Held Made at hk ⊢
      grind [ProcState.Live, Call.child]
  · rw [hinit]
    by_cases hy : y = np
    · rw [hy, hpar] at hq
      exact hy ▸ h.creator np q hq
    · rw [(hkin y hy).2] at hq
      exact h.creator y q hq

theorem memory_allocFail (hstep : step (.allocproc c) s.pt = some s.pt) :
    memory (.allocproc c) s.pt s.pt s.ledger = s.ledger := by
  simp only [step, locked_eq_some, map_caller] at hstep
  obtain ⟨-, p, -, -, hstep⟩ := hstep
  unfold memory
  rcases ha : allocproc s.pt with _ | ⟨np, t₁⟩
  · dsimp only
    split <;> simp_all
  · obtain ⟨hun, ht₁⟩ := allocproc_spec ha
    have hemb := congrArg (fun t => (t.proc np).state) hstep
    simp only [ha, ht₁, setProc_apply] at hemb
    grind

theorem assigned_memory {f : Proc → Proc} (he : e.assigned = some (c, f)) (t' : Ptable) :
    memory e s.pt t' s.ledger = s.ledger ∧ creators e s.pt s.creator = s.creator ∧
      reaps e s.pt = none := by
  cases e
  all_goals first | exact ⟨rfl, rfl, rfl⟩ | simp [Event.assigned] at he

/-- **What one step does to the processes.** -/
theorem life_step (h : s.Ok) (hlife : lifeStep e s = some t) : LifeStep e s t := by
  obtain ⟨t', hstep, rfl⟩ := Option.map_eq_some_iff.mp hlife
  have hi := inv_step h.inv hstep
  have hf := family_step h.family h.inv hstep
  cases step_moves hstep with
  | @userinit p t₁ hlock hinit halloc =>
    obtain ⟨hun, ht₁⟩ := allocproc_spec halloc
    refine .userinit h hinit hun (qpush_other p _).2.2.2.1 (fun y hy => ?_) (fun y => ?_)
      (fun y => ?_) hi hf
    · simp only [qpush_state, ht₁, allocprocInit, setProc_of_ne _ _ hy]
    · by_cases hy : y = p
      · subst hy
        simp only [qpush_call, ht₁, allocprocInit, setProc_self]
      · simp only [qpush_call, ht₁, allocprocInit, setProc_of_ne _ _ hy]
    · by_cases hy : y = p
      · subst hy
        simp only [qpush_parent, ht₁, allocprocInit, setProc_self]
      · simp only [qpush_parent, ht₁, allocprocInit, setProc_of_ne _ _ hy]
  | idle hlock hcpu hs =>
    have hsch := schedule_frame s.pt
    exact .steady h (.of_kin (fun y => by rw [hsch.1]; exact .refl _) hsch.2.2.2 0) hi hf rfl
  | @dispatch c p hlock hcpu hs => exact .steady h (dispatch_steady hs) hi hf rfl
  | resume hlock hcpu => exact .resume h hlock hcpu hi hf
  | @schedReturn c hlock =>
    exact .steady h (.of_kin (u := { s.pt with cpu := Function.update s.pt.cpu c none, lock := .free })
      (fun y => .refl (s.pt.proc y)) rfl 0) hi hf rfl
  | timer hlock hp => exact .steady h timer_steady hi hf rfl
  | @assign e c p f he hp hcall =>
    have hm := assigned_memory (s := s) he (s.pt.setProc p f)
    rw [hm.1, hm.2.1]
    exact .steady h (.of_kin (assign_kin he) rfl p) hi hf hm.2.2
  | yield hlock hp => exact .steady h (yield_steady (h.inv.runs hp)) hi hf rfl
  | sleep hlock hp => exact .steady h (sleep_steady (h.inv.runs hp) _ _) hi hf rfl
  | @wakeup chan hlock =>
    exact .steady h (.of_kin (wakeup1_kin chan _) (wakeup1_wakes chan _).initproc 0) hi hf rfl
  | @kill pid hlock =>
    exact .steady h (.of_kin (kill_kin pid) (kill_initproc pid _) 0) hi hf rfl
  | allocFail hlock =>
    rw [memory_allocFail hstep]
    exact .steady h (.of_kin (fun y => .refl _) rfl 0) hi hf rfl
  | alloc hlock hp hcall halloc => exact .alloc h hp hcall halloc rfl hi hf
  | allocInit hp hcall => exact .allocInit h hp hcall rfl hi hf
  | allocFree hp hcall => exact .allocFree h hp hcall rfl hi hf
  | forkCopy hp hcall => exact .forkCopy h hp hcall rfl hi hf
  | forkFree hp hcall => exact .forkFree h hp hcall rfl hi hf
  | forkCommit hlock hp hcall => exact .forkCommit h hp hcall rfl hi hf
  | exitFiles hp hcall hinit => exact .steady h (exitFiles_steady hinit) hi hf rfl
  | @exit c p hlock hp hcall =>
    exact .exit h (h.inv.runs hp) (h.family.exiting p hcall) hi hf
  | wait hlock hp hcall => exact .wait h hp hcall hi hf

end Step

/-! ## Runs -/

theorem lifeBoot_ok : lifeBoot.Ok := by
  refine ⟨Ptable.boot_inv, Ptable.boot_family, ⟨fun k hk => ?_, fun k k' n hk => ?_, ?_, ?_⟩,
    fun p q hp => by cases hp⟩
  · exact absurd hk (Ptable.not_held_boot k)
  · exact absurd hk (Ptable.not_held_boot k)
  · exact List.nodup_nil
  · exact fun n hn => absurd hn List.not_mem_nil

theorem life_run {es : List Event} {s : Life} (h : run lifeStep es lifeBoot = some s) : s.Ok :=
  run_inv (fun _ _ _ h hs => (life_step h hs).ok) lifeBoot_ok h

/-- What holds after any run. Whenever the lock is free, a zombie has a live parent, its creator or
init, and nobody sleeps in `wait` over a zombie child. Nothing is spent twice, and what a process
holds is not spent. At each step every process stays, with its pid, stack and page directory, or ends
as a zombie in a `wait` of its parent that returns its pid and frees the other two. -/
structure Life.ReapsOnce (s : Life) : Prop where
  parent : s.pt.lock = .free → ∀ p, (s.pt.proc p).state = .zombie →
    ∃ q, (s.pt.proc p).parent = some q ∧ (s.pt.proc q).state.Live ∧
      (s.creator p = some q ∨ s.pt.initproc = some q)
  waits : s.pt.lock = .free → ∀ q, (s.pt.proc q).state = .sleeping ∧ (s.pt.proc q).context = .wait →
    ∀ p, (s.pt.proc p).state = .zombie → (s.pt.proc p).parent ≠ some q
  nodup : s.ledger.spent.Nodup
  held : ∀ p, s.pt.Made p → ∀ o, ∃ n, s.ledger.token (p, o) = some n ∧ n ∉ s.ledger.spent
  kept : ∀ e t, lifeStep e s = some t → ∀ p, s.pt.Made p →
    (∀ q, reaps e s.pt ≠ some (q, p)) → Kept s t p
  reaped : ∀ e t, lifeStep e s = some t → ∀ q p, reaps e s.pt = some (q, p) → Reaped e s t q p

/-- **Every child is reaped exactly once**, in every run of `fork`, `exit`, `wait` and everything
else that goes on under `ptable.lock`. -/
theorem reap_once (es : List Event) (s : Life) (h : run lifeStep es lifeBoot = some s) :
    s.ReapsOnce := by
  have hok := life_run h
  refine ⟨fun _ p hp => ?_, fun _ q hq p hp hpq => hok.family.waits p q hp hpq hq,
    hok.ledger.nodup, fun p hp o => ?_, fun e t hs => (life_step hok hs).kept,
    fun e t hs => (life_step hok hs).reaped⟩
  · have hne : s.pt.initproc ≠ some p := fun hi => by
      have := hok.family.init p hi
      simp [hp, ProcState.Live] at this
    obtain ⟨q, hq⟩ := Option.ne_none_iff_exists'.mp (hok.family.parent p (.inr hp) hne)
    exact ⟨q, hq, hok.family.live p q hq, hok.creator p q hq⟩
  · obtain ⟨n, hn, -, hns⟩ := hok.ledger.token (p, o) (hp.held o)
    exact ⟨n, hn, hns⟩

/-- Init forks, sleeps in `wait`, is woken by the exit of the child, and reaps it. -/
theorem reap_once_fork : ∃ s t, run lifeStep [.userinit, .dispatch 0, .resume 0, .allocproc 0,
      .allocprocInit 0 true, .forkCopy 0 true, .forkCommit 0, .wait 0, .schedReturn 0, .dispatch 0,
      .resume 0, .exitFiles 0, .exit 0, .schedReturn 0, .dispatch 0] lifeBoot = some s ∧
    lifeStep (.resume 0) s = some t ∧ s.ReapsOnce ∧ Reaped (.resume 0) s t 0 1 := by
  have hrun : ((run lifeStep [.userinit, .dispatch 0, .resume 0, .allocproc 0,
      .allocprocInit 0 true, .forkCopy 0 true, .forkCommit 0, .wait 0, .schedReturn 0, .dispatch 0,
      .resume 0, .exitFiles 0, .exit 0, .schedReturn 0, .dispatch 0] lifeBoot).any fun s =>
        decide (reaps (.resume 0) s.pt = some (0, 1)) && (lifeStep (.resume 0) s).isSome) = true := by
    decide +kernel
  obtain ⟨s, hs, hrun⟩ := (Option.any_eq_true _ _).mp hrun
  obtain ⟨hr, ht⟩ := Bool.and_eq_true_iff.mp hrun
  obtain ⟨t, ht⟩ := Option.isSome_iff_exists.mp ht
  have h := reap_once _ s hs
  exact ⟨s, t, hs, ht, h, h.reaped _ t ht 0 1 (of_decide_eq_true hr)⟩

end OsPlayground
