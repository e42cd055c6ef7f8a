import Mathlib.Tactic.SplitIfs
import OsPlayground.Sync.Sleep

/-!
# No wakeup is lost

* `SleepInv`, `sleepInv_step`: who holds which lock, by its place in the code.
* `Answered`, `answered_step`: once a `wakeup` has ended with the condition true, nobody sleeps until
  the condition is consumed.
* **`no_lost_wakeup`**: both along every run.
-/

namespace OsPlayground

open Lib

namespace SleepPc

/-- The places where a process holds `ptable.lock`. -/
def holdsPtable (same : Bool) : SleepPc → Bool
  | .critical | .entry => same
  | .both | .setChan | .setState | .sched | .tidy | .unlock | .scan _ _ | .resumed _ => true
  | .outside | .asleep | .relock | .wakeup _ | .yielded _ => false

/-- The places where a process holds `lk`, when that is another lock. -/
def holdsLk : SleepPc → Bool
  | .critical | .entry | .both | .wakeup true | .scan true _ => true
  | _ => false

/-- The places where a process can yield. -/
def Free (pc : SleepPc) : Prop := pc = .outside ∨ pc = .relock ∨ pc = .wakeup false

/-- The places where no more is known of a process than the locks that it holds. -/
def Plain : SleepPc → Bool
  | .entry | .both | .setState | .scan _ _ | .yielded _ | .resumed _ => false
  | .outside | .critical | .setChan | .sched | .asleep | .tidy | .unlock | .relock | .wakeup _ => true

theorem Free.plain {pc : SleepPc} (h : pc.Free) : pc.Plain = true := by
  obtain rfl | rfl | rfl := h <;> rfl

theorem Free.holdsPtable {pc : SleepPc} (h : pc.Free) (same : Bool) :
    pc.holdsPtable same = false := by
  obtain rfl | rfl | rfl := h <;> rfl

theorem Free.holdsLk {pc : SleepPc} (h : pc.Free) : pc.holdsLk = false := by
  obtain rfl | rfl | rfl := h <;> rfl

end SleepPc

variable {n : ℕ} {same : Bool} {chan : Chan} {s s' : SleepSys n}

/-- The locks are held by the processes at the places between `acquire` and `release`, a process
that saw the condition false and still holds `lk` sees it false, and a scan leaves no sleeper
behind. -/
structure SleepInv (same : Bool) (chan : Chan) (s : SleepSys n) : Prop where
  ptable : ∀ p, s.ptable = some (.process p) ↔ (s.pc p).holdsPtable same = true
  lk : same = false → ∀ p, s.lk = some p ↔ (s.pc p).holdsLk = true
  free : ∀ p b, s.pc p = .yielded b ∨ s.pc p = .resumed b → b.Free
  chan : ∀ p, s.pc p = .setState ∨ s.state p = .sleeping → s.chan p = chan
  asleep : ∀ p, s.state p = .sleeping → s.pc p = .sched ∨ s.pc p = .asleep
  cond : ∀ p, s.pc p = .entry ∨ s.pc p = .both → s.cond = false
  scan : ∀ p h i, s.pc p = .scan h i → ∀ j : Fin n, j.val < i → s.state j ≠ .sleeping

namespace SleepInv

theorem start (n : ℕ) (c : Bool) : SleepInv same chan (sleepStart n c) where
  ptable _ := by simp [sleepStart, SleepPc.holdsPtable]
  lk _ _ := by simp [sleepStart, SleepPc.holdsLk]
  free p b h := by
    simp [sleepStart] at h
    exact .inl h.symm
  chan p h := by simp [sleepStart] at h
  asleep p h := by simp [sleepStart] at h
  cond p h := by simp [sleepStart] at h
  scan p h i hp := by simp [sleepStart] at hp

theorem ptable_take {p : Fin n} {v : SleepPc} (hfree : ∀ q, s.ptable ≠ some (.process q))
    (hv : v.holdsPtable same = true) (q : Fin n) : some (LockHolder.process p) = some (.process q) ↔
      if q = p then v.holdsPtable same = true else s.ptable = some (.process q) := by
  split_ifs with hq
  · simp [hq, hv]
  · exact iff_of_false (by simpa using Ne.symm hq) (hfree q)

theorem ptable_other {p : Fin n} {v : SleepPc} {m : Option (LockHolder n)}
    (hfree : ∀ q, s.ptable ≠ some (.process q)) (hm : ∀ q, m ≠ some (.process q))
    (hv : v.holdsPtable same = false) (q : Fin n) : m = some (.process q) ↔
      if q = p then v.holdsPtable same = true else s.ptable = some (.process q) := by
  refine iff_of_false (hm q) ?_
  split_ifs with hq
  · simp [hv]
  · exact hfree q

theorem lk_take {p : Fin n} {v : SleepPc} (hfree : s.lk = none) (hv : v.holdsLk = true)
    (q : Fin n) : some p = some q ↔ if q = p then v.holdsLk = true else s.lk = some q := by
  split_ifs with hq
  · simp [hq, hv]
  · simp [hfree, Ne.symm hq]

variable (h : SleepInv same chan s)
include h

theorem ptable_unique {p q : Fin n} (hp : (s.pc p).holdsPtable same = true)
    (hq : (s.pc q).holdsPtable same = true) : p = q := by
  have := ((h.ptable p).mpr hp).symm.trans ((h.ptable q).mpr hq)
  simpa using this

theorem not_entry {p q : Fin n} (hp : s.pc p = .critical) : s.pc q ≠ .entry ∧ s.pc q ≠ .both := by
  cases hsame : same with
  | true =>
    have hpt : (s.pc p).holdsPtable same = true := by simp [hp, SleepPc.holdsPtable, hsame]
    constructor
    all_goals
      intro hq
      have hqp := h.ptable_unique hpt (q := q) (by simp [hq, SleepPc.holdsPtable, hsame])
      subst hqp
      simp [hp] at hq
  | false =>
    have hlk := (h.lk hsame p).mpr (by simp [hp, SleepPc.holdsLk])
    constructor
    all_goals
      intro hq
      have hqp := hlk.symm.trans ((h.lk hsame q).mpr (by simp [hq, SleepPc.holdsLk]))
      obtain rfl := Option.some.inj hqp
      simp [hp] at hq

theorem not_sleeping {p : Fin n} (h₁ : s.pc p ≠ .sched) (h₂ : s.pc p ≠ .asleep) :
    s.state p ≠ .sleeping := fun hs => (h.asleep p hs).elim h₁ h₂

/-! ### The locks -/

section Locks

variable {p : Fin n} {v : SleepPc}

theorem ptable_keep (hv : v.holdsPtable same = (s.pc p).holdsPtable same) (q : Fin n) :
    s.ptable = some (.process q) ↔
      if q = p then v.holdsPtable same = true else s.ptable = some (.process q) := by
  split_ifs with hq
  · rw [hq, hv]
    exact h.ptable p
  · exact Iff.rfl

theorem ptable_give {m : Option (LockHolder n)} (hp : (s.pc p).holdsPtable same = true)
    (hv : v.holdsPtable same = false) (hm : ∀ q, m ≠ some (.process q)) (q : Fin n) :
    m = some (.process q) ↔
      if q = p then v.holdsPtable same = true else s.ptable = some (.process q) := by
  refine iff_of_false (hm q) ?_
  split_ifs with hq
  · simp [hv]
  · exact fun hpt => hq (h.ptable_unique ((h.ptable q).mp hpt) hp)

theorem lk_keep (hv : v.holdsLk = (s.pc p).holdsLk) (hs : same = false) (q : Fin n) :
    s.lk = some q ↔ if q = p then v.holdsLk = true else s.lk = some q := by
  split_ifs with hq
  · rw [hq, hv]
    exact h.lk hs p
  · exact Iff.rfl

theorem lk_give (hp : (s.pc p).holdsLk = true) (hv : v.holdsLk = false) (hs : same = false)
    (q : Fin n) : none = some q ↔ if q = p then v.holdsLk = true else s.lk = some q := by
  refine iff_of_false (by simp) ?_
  split_ifs with hq
  · simp [hv]
  · rw [(h.lk hs p).mpr hp]
    exact fun he => hq (Option.some.inj he).symm

end Locks

/-! ### What a step does -/

theorem goto {p : Fin n} {v : SleepPc} {m : Option (LockHolder n)} {l : Option (Fin n)}
    (hstate : s.state p = .sleeping → v = .asleep)
    (hpt : ∀ q, m = some (.process q) ↔
      if q = p then v.holdsPtable same = true else s.ptable = some (.process q))
    (hlk : same = false → ∀ q, l = some q ↔
      if q = p then v.holdsLk = true else s.lk = some q)
    (hfree : ∀ b, v = .yielded b ∨ v = .resumed b → b.Free)
    (hchan : v = .setState → s.chan p = chan)
    (hcond : v = .entry ∨ v = .both → s.cond = false)
    (hscan : ∀ h i, v = .scan h i → ∀ j : Fin n, j.val < i → s.state j ≠ .sleeping) :
    SleepInv same chan ({ s with ptable := m, lk := l }.goto p v) := by
  obtain ⟨h₁, h₂, h₃, h₄, h₅, h₆, h₇⟩ := h
  constructor
  all_goals
    simp only [SleepSys.goto, Function.update_apply]
    grind

theorem gotoPlain {p : Fin n} {v : SleepPc} {m : Option (LockHolder n)} {l : Option (Fin n)}
    (hv : v.Plain = true) (hstate : s.state p = .sleeping → v = .asleep)
    (hpt : ∀ q, m = some (.process q) ↔
      if q = p then v.holdsPtable same = true else s.ptable = some (.process q))
    (hlk : same = false → ∀ q, l = some q ↔
      if q = p then v.holdsLk = true else s.lk = some q) :
    SleepInv same chan ({ s with ptable := m, lk := l }.goto p v) := by
  refine h.goto hstate hpt hlk ?_ ?_ ?_ ?_
  · rintro b (rfl | rfl) <;> exact absurd hv Bool.false_ne_true
  · rintro rfl
    exact absurd hv Bool.false_ne_true
  · rintro (rfl | rfl) <;> exact absurd hv Bool.false_ne_true
  · rintro b i rfl
    exact absurd hv Bool.false_ne_true

theorem gotoScan {p : Fin n} {b : Bool} {i : ℕ} {m : Option (LockHolder n)} {l : Option (Fin n)}
    (hstate : s.state p ≠ .sleeping)
    (hpt : ∀ q, m = some (.process q) ↔
      if q = p then (SleepPc.scan b i).holdsPtable same = true else s.ptable = some (.process q))
    (hlk : same = false → ∀ q, l = some q ↔
      if q = p then (SleepPc.scan b i).holdsLk = true else s.lk = some q)
    (hscan : ∀ j : Fin n, j.val < i → s.state j ≠ .sleeping) :
    SleepInv same chan ({ s with ptable := m, lk := l }.goto p (.scan b i)) := by
  refine h.goto (fun hs => absurd hs hstate) hpt hlk (by simp) (by simp) (by simp) fun b' i' hv => ?_
  obtain ⟨-, rfl⟩ := SleepPc.scan.inj hv
  exact hscan

theorem wake {p : Fin n} {x : ProcState} (hx : x ≠ .sleeping) :
    SleepInv same chan { s with state := Function.update s.state p x } := by
  obtain ⟨h₁, h₂, h₃, h₄, h₅, h₆, h₇⟩ := h
  constructor
  all_goals
    simp only [Function.update_apply]
    grind

theorem fallAsleep {p : Fin n} (hp : s.pc p = .sched) (hc : s.chan p = chan) :
    SleepInv same chan { s with state := Function.update s.state p .sleeping } := by
  refine ⟨h.ptable, h.lk, h.free, fun q hq => ?_, fun q hq => ?_, h.cond, fun q b i hq => ?_⟩
  · by_cases hqp : q = p
    · rw [hqp]
      exact hc
    · have hne := Function.update_of_ne hqp ProcState.sleeping s.state
      exact h.chan q (hq.imp_right hne.symm.trans)
  · by_cases hqp : q = p
    · rw [hqp]
      exact .inl hp
    · exact h.asleep q ((Function.update_of_ne hqp ProcState.sleeping s.state).symm.trans hq)
  · have hqp := h.ptable_unique (p := p) (q := q) (by rw [hp]; rfl) (by rw [hq]; rfl)
    rw [← hqp, hp] at hq
    cases hq

theorem setChan {p : Fin n} (hp : s.pc p ≠ .setState) (hst : s.state p ≠ .sleeping) (x : Chan) :
    SleepInv same chan { s with chan := Function.update s.chan p x } := by
  refine ⟨h.ptable, h.lk, h.free, fun q hq => ?_, h.asleep, h.cond, h.scan⟩
  have hqp : q ≠ p := by
    rintro rfl
    exact hq.elim hp hst
  exact (Function.update_of_ne hqp x s.chan).trans (h.chan q hq)

theorem cpu (on : Fin n → ℕ) (cpu : ℕ → Option (Fin n)) :
    SleepInv same chan { s with on := on, cpu := cpu } :=
  ⟨h.ptable, h.lk, h.free, h.chan, h.asleep, h.cond, h.scan⟩

theorem scheduler {pt : Option (LockHolder n)} (hpt : ∀ q, pt ≠ some (.process q))
    (hs : ∀ q, s.ptable ≠ some (.process q)) : SleepInv same chan { s with ptable := pt } :=
  ⟨fun q => ⟨fun hq => absurd hq (hpt q), fun hq => absurd ((h.ptable q).mpr hq) (hs q)⟩,
    h.lk, h.free, h.chan, h.asleep, h.cond, h.scan⟩

theorem setCond {p : Fin n} (hp : s.pc p = .critical) (c : Bool) :
    SleepInv same chan { s with cond := c } where
  ptable := h.ptable
  lk := h.lk
  free := h.free
  chan := h.chan
  asleep := h.asleep
  cond q hq := by
    obtain ⟨h₁, h₂⟩ := h.not_entry hp (q := q)
    exact absurd hq (by simp [h₁, h₂])
  scan := h.scan

/-! ### The steps -/

theorem acquireLk {p : Fin n} (hp : s.pc p = .outside ∨ s.pc p = .relock)
    (ha : s.acquireLk same p = some s') : SleepInv same chan (s'.goto p .critical) := by
  have hst : s.state p ≠ .sleeping := by
    obtain hp | hp := hp <;> exact h.not_sleeping (by simp [hp]) (by simp [hp])
  unfold SleepSys.acquireLk at ha
  split_ifs at ha with hsame hfree hfree
  · obtain rfl := Option.some.inj ha
    have hv : SleepPc.critical.holdsPtable same = true := hsame
    exact h.gotoPlain (l := s.lk) rfl (fun hs => absurd hs hst) (ptable_take (by simp [hfree]) hv)
      fun hs => absurd (hsame.symm.trans hs) (by decide)
  · obtain rfl := Option.some.inj ha
    have hv : SleepPc.critical.holdsPtable same = (s.pc p).holdsPtable same := by
      obtain hp | hp := hp <;> simpa [hp, SleepPc.holdsPtable] using hsame
    exact h.gotoPlain (m := s.ptable) rfl (fun hs => absurd hs hst) (h.ptable_keep hv)
      fun _ => lk_take hfree rfl

theorem releaseLk {p : Fin n} (hp : s.pc p = .critical) :
    SleepInv same chan ((s.releaseLk same).goto p .outside) := by
  have hst := h.not_sleeping (p := p) (by simp [hp]) (by simp [hp])
  unfold SleepSys.releaseLk
  split_ifs with hsame
  · have hpt : (s.pc p).holdsPtable same = true := by rw [hp]; exact hsame
    exact h.gotoPlain (l := s.lk) rfl (fun hs => absurd hs hst)
      (h.ptable_give hpt rfl (by simp)) fun hs => absurd (hsame.symm.trans hs) (by decide)
  · have hpt : SleepPc.outside.holdsPtable same = (s.pc p).holdsPtable same := by
      simpa [hp, SleepPc.holdsPtable] using hsame
    exact h.gotoPlain (m := s.ptable) rfl (fun hs => absurd hs hst) (h.ptable_keep hpt)
      (h.lk_give (by rw [hp]; rfl) rfl)

/-- A step inside `sleep`. -/
theorem sleepNext {p : Fin n} (hst : s.state p = .running ∨ s.pc p = .sched)
    (hs : sleepNext same chan p s = some s') : SleepInv same chan s' := by
  have hawake : s.pc p ≠ .sched → s.state p ≠ .sleeping := fun hp => by
    rw [hst.resolve_right hp]
    simp
  unfold OsPlayground.sleepNext at hs
  split at hs
  · rename_i hp
    have hsl := hawake (by simp [hp])
    split_ifs at hs with hsame hfree
    · obtain rfl := Option.some.inj hs
      have hv : SleepPc.setChan.holdsPtable same = (s.pc p).holdsPtable same := by
        rw [hp]; exact hsame.symm
      exact h.gotoPlain (l := s.lk) rfl (fun hs => absurd hs hsl) (h.ptable_keep hv)
        fun hs => absurd (hsame.symm.trans hs) (by decide)
    · obtain rfl := Option.some.inj hs
      exact h.goto (l := s.lk) (fun hs => absurd hs hsl) (ptable_take (by simp [hfree]) rfl)
        (h.lk_keep (by rw [hp]; rfl)) (by simp) (by simp) (fun _ => h.cond p (.inl hp)) (by simp)
  · rename_i hp
    obtain rfl := Option.some.inj hs
    exact h.gotoPlain (m := s.ptable) rfl (fun hs => absurd hs (hawake (by simp [hp])))
      (h.ptable_keep (by rw [hp]; rfl)) (h.lk_give (by rw [hp]; rfl) rfl)
  · rename_i hp
    obtain rfl := Option.some.inj hs
    have hsl := hawake (by simp [hp])
    have hc := h.setChan (p := p) (by simp [hp]) hsl chan
    exact hc.goto (m := s.ptable) (l := s.lk) (fun hs => absurd hs hsl)
      (h.ptable_keep (by rw [hp]; rfl)) (h.lk_keep (by rw [hp]; rfl)) (by simp)
      (fun _ => Function.update_self ..) (by simp) (by simp)
  · rename_i hp
    obtain rfl := Option.some.inj hs
    have hg : SleepInv same chan (s.goto p .sched) :=
      h.gotoPlain (m := s.ptable) (l := s.lk) rfl (fun hs => absurd hs (hawake (by simp [hp])))
        (h.ptable_keep (by rw [hp]; rfl)) (h.lk_keep (by rw [hp]; rfl))
    exact hg.fallAsleep (p := p) (Function.update_self ..) (h.chan p (.inl hp))
  · rename_i hp
    obtain rfl := Option.some.inj hs
    exact (h.gotoPlain (l := s.lk) (p := p) (v := .asleep) rfl (fun _ => rfl)
      (h.ptable_give (m := some (.scheduler (s.on p))) (by rw [hp]; rfl) rfl (by simp))
      (h.lk_keep (by rw [hp]; rfl))).cpu _ _
  · rename_i hp
    obtain rfl := Option.some.inj hs
    have hsl := hawake (by simp [hp])
    have hc := h.setChan (p := p) (by simp [hp]) hsl .null
    cases same with
    | true =>
      exact hc.gotoPlain (m := s.ptable) (l := s.lk) rfl (fun hs => absurd hs hsl)
        (h.ptable_keep (by rw [hp]; rfl)) (by simp)
    | false =>
      exact hc.gotoPlain (m := s.ptable) (l := s.lk) rfl (fun hs => absurd hs hsl)
        (h.ptable_keep (by rw [hp]; rfl)) (h.lk_keep (by rw [hp]; rfl))
  · rename_i hp
    obtain rfl := Option.some.inj hs
    exact h.gotoPlain (l := s.lk) rfl (fun hs => absurd hs (hawake (by simp [hp])))
      (h.ptable_give (by rw [hp]; rfl) rfl (by simp)) (h.lk_keep (by rw [hp]; rfl))
  · rename_i hp
    obtain ⟨s₁, hs₁, rfl⟩ := Option.map_eq_some_iff.mp hs
    exact h.acquireLk (.inr hp) hs₁
  · simp at hs

/-- A step inside `wakeup`. -/
theorem wakeupNext {p : Fin n} (hst : s.state p = .running)
    (hs : wakeupNext same chan p s = some s') : SleepInv same chan s' := by
  have hsl : s.state p ≠ .sleeping := by
    rw [hst]
    simp
  unfold OsPlayground.wakeupNext at hs
  split at hs
  · rename_i hp
    obtain rfl := Option.some.inj hs
    exact h.gotoPlain (m := s.ptable) (l := s.lk) rfl (fun hs => absurd hs hsl)
      (h.ptable_keep (by rw [hp]; rfl)) (h.lk_keep (by rw [hp]; rfl))
  · rename_i hp
    obtain rfl := Option.some.inj hs
    cases same with
    | true =>
      exact h.gotoScan (m := s.ptable) (l := s.lk) hsl (h.ptable_keep (by rw [hp]; rfl)) (by simp)
        fun j hj => absurd hj (Nat.not_lt_zero _)
    | false =>
      exact h.gotoPlain (m := s.ptable) (l := s.lk) rfl (fun hs => absurd hs hsl)
        (h.ptable_keep (by rw [hp]; rfl)) (h.lk_keep (by rw [hp]; rfl))
  · rename_i inside hp
    split_ifs at hs with hfree
    obtain rfl := Option.some.inj hs
    have hlk : (SleepPc.scan inside 0).holdsLk = (s.pc p).holdsLk := by
      rw [hp]
      cases inside <;> rfl
    exact h.gotoScan (l := s.lk) hsl (ptable_take (by simp [hfree]) rfl) (h.lk_keep hlk)
      fun j hj => absurd hj (Nat.not_lt_zero _)
  · rename_i inside i hp
    have hscan := h.scan p inside i hp
    have hpt : (s.pc p).holdsPtable same = true := by rw [hp]; rfl
    have hlk : (SleepPc.scan inside (i + 1)).holdsLk = (s.pc p).holdsLk := by
      rw [hp]
      cases inside <;> rfl
    split_ifs at hs with hi hsleep hin hsame
    · obtain rfl := Option.some.inj hs
      have hw := h.wake (p := ⟨i, hi⟩) (x := .runnable) (by simp)
      have hstate : ∀ j : Fin n, j.val < i + 1 ∨ s.state j ≠ .sleeping →
          Function.update s.state ⟨i, hi⟩ .runnable j ≠ .sleeping := fun j hj => by
        rw [Function.update_apply]
        split_ifs with hji
        · simp
        · refine hj.elim (fun hj => hscan j ?_) id
          exact lt_of_le_of_ne (Nat.le_of_lt_succ hj) fun he => hji (Fin.ext he)
      exact hw.gotoScan (m := s.ptable) (l := s.lk) (hstate p (.inr hsl))
        (h.ptable_keep hpt.symm) (h.lk_keep hlk) fun j hj => hstate j (.inl hj)
    · -- The slot is not asleep, since whoever sleeps does so on `chan`.
      have hslot : s.state ⟨i, hi⟩ ≠ .sleeping := fun hx => hsleep ⟨hx, h.chan _ (.inr hx)⟩
      obtain rfl := Option.some.inj hs
      refine h.gotoScan (m := s.ptable) (l := s.lk) hsl (h.ptable_keep hpt.symm) (h.lk_keep hlk)
        fun j hj => ?_
      rcases Nat.lt_succ_iff_lt_or_eq.mp hj with hj | rfl
      · exact hscan j hj
      · exact hslot
    · obtain rfl := Option.some.inj hs
      exact h.gotoPlain (m := s.ptable) (l := s.lk) rfl (fun hs => absurd hs hsl)
        (h.ptable_keep (by rw [hpt]; exact hsame)) fun hs => absurd (hsame.symm.trans hs) (by decide)
    · obtain rfl := Option.some.inj hs
      obtain rfl := Bool.eq_false_of_not_eq_true hsame
      exact h.gotoPlain (l := s.lk) rfl (fun hs => absurd hs hsl)
        (h.ptable_give hpt rfl (by simp)) (h.lk_keep (by rw [hp, hin]; rfl))
    · obtain rfl := Option.some.inj hs
      obtain rfl := Bool.eq_false_of_not_eq_true hin
      exact h.gotoPlain (l := s.lk) rfl (fun hs => absurd hs hsl)
        (h.ptable_give hpt rfl (by simp)) (h.lk_keep (by rw [hp]; rfl))
  · simp at hs

/-- The test of a waiter: it goes on, or calls `sleep`. -/
theorem test {p : Fin n} (hs : sleepStep same chan (.test p) s = some s') :
    SleepInv same chan s' := by
  simp only [sleepStep] at hs
  split_ifs at hs with hp hc
  · obtain rfl := Option.some.inj hs
    exact h.gotoPlain (m := s.ptable) (l := s.lk) rfl (fun hs => by simp [hp.1] at hs)
      (h.ptable_keep (by rw [hp.2])) (h.lk_keep (by rw [hp.2]))
  · obtain rfl := Option.some.inj hs
    exact h.goto (m := s.ptable) (l := s.lk) (fun hs => by simp [hp.1] at hs)
      (h.ptable_keep (by rw [hp.2]; rfl)) (h.lk_keep (by rw [hp.2]; rfl)) (by simp) (by simp)
      (fun _ => by simpa using hc) (by simp)

/-- The `yield` of a clock interrupt. -/
theorem preempt {p : Fin n} (hs : sleepStep same chan (.preempt p) s = some s') :
    SleepInv same chan s' := by
  simp only [sleepStep] at hs
  split_ifs at hs with hp
  obtain ⟨hst, hfree, hpc⟩ := hp
  obtain rfl := Option.some.inj hs
  have hw := h.wake (p := p) (x := .runnable) (by simp)
  have hlk : (SleepPc.yielded (s.pc p)).holdsLk = (s.pc p).holdsLk :=
    (SleepPc.Free.holdsLk hpc).symm
  refine (hw.goto (l := s.lk) (p := p) (v := .yielded (s.pc p)) (fun hs => ?_)
    (SleepInv.ptable_other (m := some (.scheduler (s.on p))) (by simp [hfree]) (by simp) rfl)
    (h.lk_keep hlk) ?_ (by simp) (by simp) (by simp)).cpu _ _
  · simp at hs
  · rintro b (hb | hb)
    · exact SleepPc.yielded.inj hb ▸ hpc
    · cases hb

/-- The rest of `yield`, after the process was dispatched again. -/
theorem resume {p : Fin n} (hs : sleepStep same chan (.resume p) s = some s') :
    SleepInv same chan s' := by
  simp only [sleepStep] at hs
  split at hs
  · rename_i back hp
    have hb := h.free p back (.inr hp)
    obtain rfl := Option.some.inj hs
    have hsl := h.not_sleeping (p := p) (by simp [hp]) (by simp [hp])
    exact h.gotoPlain (l := s.lk) hb.plain (fun hs => absurd hs hsl)
      (h.ptable_give (by rw [hp]; rfl) (hb.holdsPtable same) (by simp))
      (h.lk_keep (by rw [hp, hb.holdsLk]; rfl))
  · simp at hs

/-- The scheduler of the CPU `c` dispatches `p`, which slept or yielded. -/
theorem schedule {c : ℕ} {p : Fin n} (hs : sleepStep same chan (.schedule c p) s = some s') :
    SleepInv same chan s' := by
  simp only [sleepStep] at hs
  split_ifs at hs with hp
  obtain ⟨hfree, hst⟩ := hp
  have hw := (h.wake (p := p) (x := .running) (by simp)).cpu (Function.update s.on p c)
    (Function.update s.cpu c (some p))
  split at hs
  · rename_i hpc
    obtain rfl := Option.some.inj hs
    exact hw.gotoPlain (l := s.lk) (p := p) rfl (by simp) (SleepInv.ptable_take (by simp [hfree]) rfl)
      (h.lk_keep (by rw [hpc]; rfl))
  · rename_i back hpc
    obtain rfl := Option.some.inj hs
    refine hw.goto (l := s.lk) (p := p) (by simp) (SleepInv.ptable_take (by simp [hfree]) rfl)
      (h.lk_keep (by rw [hpc]; rfl)) ?_ (by simp) (by simp) (by simp)
    rintro b (hb | hb)
    · cases hb
    · exact SleepPc.resumed.inj hb ▸ h.free p back (.inl hpc)
  · simp at hs

end SleepInv

/-- **One step keeps the invariant.** -/
theorem sleepInv_step (h : SleepInv same chan s) {e : SleepEvent n}
    (hs : sleepStep same chan e s = some s') : SleepInv same chan s' := by
  cases e with
  | acquire p =>
    simp only [sleepStep] at hs
    split_ifs at hs with hp
    obtain ⟨s₁, hs₁, rfl⟩ := Option.map_eq_some_iff.mp hs
    exact h.acquireLk (.inl hp.2) hs₁
  | test p => exact h.test hs
  | set p =>
    simp only [sleepStep] at hs
    split_ifs at hs with hp
    obtain rfl := Option.some.inj hs
    exact h.setCond hp.2 true
  | consume p =>
    simp only [sleepStep] at hs
    split_ifs at hs with hp
    obtain rfl := Option.some.inj hs
    exact h.setCond hp.2 false
  | release p =>
    simp only [sleepStep] at hs
    split_ifs at hs with hp
    obtain rfl := Option.some.inj hs
    exact h.releaseLk hp.2
  | sleep p =>
    simp only [sleepStep] at hs
    split_ifs at hs with hp
    exact h.sleepNext hp hs
  | wakeup p =>
    simp only [sleepStep] at hs
    split_ifs at hs with hp
    exact h.wakeupNext hp hs
  | preempt p => exact h.preempt hs
  | resume p => exact h.resume hs
  | kill p =>
    simp only [sleepStep] at hs
    split_ifs at hs with hp
    obtain rfl := Option.some.inj hs
    exact h.wake (by simp)
  | schedAcquire c =>
    simp only [sleepStep] at hs
    split_ifs at hs with hp
    obtain rfl := Option.some.inj hs
    exact h.scheduler (by simp) (by simp [hp.1])
  | schedule c p => exact h.schedule hs
  | schedRelease c =>
    simp only [sleepStep] at hs
    split_ifs at hs with hp
    obtain rfl := Option.some.inj hs
    exact h.scheduler (by simp) (by simp [hp])

/-! ## After a wakeup -/

/-- The condition holds, and nobody sleeps or is on the way to `sched` in `sleep`. -/
structure Answered (s : SleepSys n) : Prop where
  cond : s.cond = true
  sleeping : ∀ p, s.state p ≠ .sleeping
  pc : ∀ p, s.pc p ≠ .setChan ∧ s.pc p ≠ .setState

/-- The step that ends a call of `wakeup` (or of `wakeup1` under `ptable.lock`). -/
def EndsWakeup (p : Fin n) (s : SleepSys n) : Prop :=
  ∃ inside i, s.pc p = .scan inside i ∧ n ≤ i

theorem answered_of_wakeup (h : SleepInv same chan s) {p : Fin n} (hp : EndsWakeup p s)
    (hc : s.cond = true) (hs : sleepStep same chan (.wakeup p) s = some s') : Answered s' := by
  obtain ⟨inside, i, hpc, hi⟩ := hp
  have hsl : ∀ q, s.state q ≠ .sleeping := fun q => h.scan p inside i hpc q (by omega)
  -- The others are not in `sleep` with `ptable.lock`, as `p` holds it.
  have hpcs : ∀ q, s.pc q ≠ .setChan ∧ s.pc q ≠ .setState := by
    have huniq := fun q => h.ptable_unique (p := p) (q := q) (by simp [hpc, SleepPc.holdsPtable])
    grind [SleepPc.holdsPtable]
  simp only [sleepStep, wakeupNext, hpc] at hs
  rw [dif_neg (by omega)] at hs
  split_ifs at hs
  all_goals
    obtain rfl := Option.some.inj hs
    constructor
    all_goals
      simp only [SleepSys.goto, Function.update_apply]
      grind

theorem Answered.goto (ha : Answered s) {p : Fin n} {v : SleepPc} {pt : Option (LockHolder n)}
    {lk : Option (Fin n)} {ch : Fin n → Chan} {on : Fin n → ℕ} {cpu : ℕ → Option (Fin n)}
    (hv : v ≠ .setChan ∧ v ≠ .setState) :
    Answered ({ s with ptable := pt, lk := lk, chan := ch, on := on, cpu := cpu }.goto p v) := by
  obtain ⟨hc, hsl, hpc⟩ := ha
  refine ⟨hc, hsl, fun q => ?_⟩
  simp only [SleepSys.goto, Function.update_apply]
  split_ifs
  · exact hv
  · exact hpc q

theorem Answered.setState (ha : Answered s) {p : Fin n} {x : ProcState} (hx : x ≠ .sleeping) :
    Answered { s with state := Function.update s.state p x } := by
  obtain ⟨hc, hsl, hpc⟩ := ha
  refine ⟨hc, fun q => ?_, hpc⟩
  simp only [Function.update_apply]
  split_ifs
  · exact hx
  · exact hsl q

theorem Answered.acquireLk (ha : Answered s) {p : Fin n} {v : SleepPc}
    (hv : v ≠ .setChan ∧ v ≠ .setState) (hs : s.acquireLk same p = some s') :
    Answered (s'.goto p v) := by
  unfold SleepSys.acquireLk at hs
  split_ifs at hs
  all_goals
    obtain rfl := Option.some.inj hs
    exact ha.goto hv

theorem answered_sleepNext (h : SleepInv same chan s) (ha : Answered s) {p : Fin n}
    (hs : sleepNext same chan p s = some s') : Answered s' := by
  unfold sleepNext at hs
  split at hs
  · rename_i hp
    exact absurd (h.cond p (.inl hp)) (by simp [ha.cond])
  · rename_i hp
    exact absurd (h.cond p (.inr hp)) (by simp [ha.cond])
  · rename_i hp
    exact absurd hp (ha.pc p).1
  · rename_i hp
    exact absurd hp (ha.pc p).2
  · obtain rfl := Option.some.inj hs
    exact ha.goto (by simp)
  · obtain rfl := Option.some.inj hs
    refine ha.goto ?_
    cases same <;> simp
  · obtain rfl := Option.some.inj hs
    exact ha.goto (by simp)
  · obtain ⟨s₁, hs₁, rfl⟩ := Option.map_eq_some_iff.mp hs
    exact ha.acquireLk (by simp) hs₁
  · simp at hs

theorem answered_wakeupNext (ha : Answered s) {p : Fin n}
    (hs : wakeupNext same chan p s = some s') : Answered s' := by
  unfold wakeupNext at hs
  split at hs
  · obtain rfl := Option.some.inj hs
    exact ha.goto (by simp)
  · obtain rfl := Option.some.inj hs
    refine ha.goto ?_
    cases same <;> simp
  · split_ifs at hs
    obtain rfl := Option.some.inj hs
    exact ha.goto (by simp)
  · split_ifs at hs
    · obtain rfl := Option.some.inj hs
      exact (ha.setState (by simp)).goto (by simp)
    all_goals
      obtain rfl := Option.some.inj hs
      exact ha.goto (by simp)
  · simp at hs

/-- **One step that does not consume the condition leaves nobody asleep.** -/
theorem answered_step (h : SleepInv same chan s) (ha : Answered s) {e : SleepEvent n}
    (he : ∀ p, e ≠ .consume p) (hs : sleepStep same chan e s = some s') : Answered s' := by
  cases e with
  | consume p => exact absurd rfl (he p)
  | sleep p =>
    simp only [sleepStep] at hs
    split_ifs at hs
    exact answered_sleepNext h ha hs
  | wakeup p =>
    simp only [sleepStep] at hs
    split_ifs at hs
    exact answered_wakeupNext ha hs
  | acquire p =>
    simp only [sleepStep] at hs
    split_ifs at hs
    obtain ⟨s₁, hs₁, rfl⟩ := Option.map_eq_some_iff.mp hs
    exact ha.acquireLk (by simp) hs₁
  | test p =>
    simp only [sleepStep, ha.cond] at hs
    split_ifs at hs
    obtain rfl := Option.some.inj hs
    exact ha.goto (by simp)
  | set p =>
    simp only [sleepStep] at hs
    split_ifs at hs
    obtain rfl := Option.some.inj hs
    exact ⟨rfl, ha.sleeping, ha.pc⟩
  | release p =>
    simp only [sleepStep, SleepSys.releaseLk] at hs
    split_ifs at hs
    all_goals
      obtain rfl := Option.some.inj hs
      exact ha.goto (by simp)
  | preempt p =>
    simp only [sleepStep] at hs
    split_ifs at hs
    obtain rfl := Option.some.inj hs
    exact (ha.setState (by simp)).goto (by simp)
  | resume p =>
    simp only [sleepStep] at hs
    split at hs
    · rename_i back hp
      obtain rfl := Option.some.inj hs
      have hb := h.free p back (.inr hp)
      exact ha.goto (by obtain rfl | rfl | rfl := hb <;> simp)
    · simp at hs
  | kill p =>
    simp only [sleepStep] at hs
    split_ifs at hs
    obtain rfl := Option.some.inj hs
    exact ha.setState (by simp)
  | schedAcquire c =>
    simp only [sleepStep] at hs
    split_ifs at hs
    obtain rfl := Option.some.inj hs
    exact ⟨ha.cond, ha.sleeping, ha.pc⟩
  | schedule c p =>
    simp only [sleepStep] at hs
    split_ifs at hs
    have hw := ha.setState (p := p) (x := .running) (by simp)
    split at hs
    · obtain rfl := Option.some.inj hs
      exact hw.goto (by simp)
    · obtain rfl := Option.some.inj hs
      exact hw.goto (by simp)
    · simp at hs
  | schedRelease c =>
    simp only [sleepStep] at hs
    split_ifs at hs
    obtain rfl := Option.some.inj hs
    exact ⟨ha.cond, ha.sleeping, ha.pc⟩

/-- **No wakeup is lost.** In any run of any number of processes, from the end of a `wakeup` with
the condition true and until the condition is consumed, no process is `SLEEPING` on `chan`. -/
theorem no_lost_wakeup (n : ℕ) (same : Bool) (chan : Chan) (c : Bool) (es es' : List (SleepEvent n))
    (p : Fin n) (s t u : SleepSys n) (hs : run (sleepStep same chan) es (sleepStart n c) = some s)
    (hp : EndsWakeup p s) (ht : sleepStep same chan (.wakeup p) s = some t) (hc : t.cond = true)
    (hes : ∀ q, .consume q ∉ es') (hu : run (sleepStep same chan) es' t = some u) (q : Fin n) :
    ¬ (u.state q = .sleeping ∧ u.chan q = chan) := by
  have hinv := run_inv (fun _ _ _ h => sleepInv_step h) (SleepInv.start n c) hs
  have hinvt := sleepInv_step hinv ht
  have hc' : s.cond = true := by
    obtain ⟨inside, i, hpc, hi⟩ := hp
    simp only [sleepStep, wakeupNext, hpc] at ht
    rw [dif_neg (by omega)] at ht
    split_ifs at ht
    all_goals
      obtain rfl := Option.some.inj ht
      exact hc
  have hat := answered_of_wakeup hinv hp hc' ht
  have hall : Throughout (sleepStep same chan) (fun s => SleepInv same chan s ∧ Answered s) es' t :=
    throughout_of_along (P := fun _ e _ => ∀ q, e ≠ .consume q)
      (fun _ _ _ h he hs => ⟨sleepInv_step h.1 hs, answered_step h.1 h.2 he hs⟩) ⟨hinvt, hat⟩
      (along_of_forall t fun e he _ _ q hq => hes q (hq ▸ he))
  exact fun h => (hall.end hu).2.sleeping q h.1

/-- Process 0 falls asleep on CPU 0; process 1 sets the condition on CPU 1 and scans the table. -/
def handover : List (SleepEvent 2) :=
  [.schedAcquire 0, .schedule 0 0, .resume 0, .acquire 0, .test 0, .sleep 0, .sleep 0, .sleep 0,
    .sleep 0, .sleep 0, .schedRelease 0, .schedAcquire 1, .schedule 1 1, .resume 1, .acquire 1,
    .set 1, .wakeup 1, .wakeup 1, .wakeup 1, .wakeup 1]

theorem no_lost_wakeup_handover :
    ∃ s t u, run (sleepStep false (.addr 1)) handover (sleepStart 2 false) = some s ∧
      sleepStep false (.addr 1) (.wakeup 1) s = some t ∧ t.cond = true ∧
      run (sleepStep false (.addr 1)) [.release 1] t = some u ∧
      ∀ q, ¬ (u.state q = .sleeping ∧ u.chan q = .addr 1) := by
  have hrun : ((run (sleepStep false (.addr 1)) handover (sleepStart 2 false)).any fun s =>
      decide (s.pc 1 = .scan true 2) && (sleepStep false (.addr 1) (.wakeup 1) s).any fun t =>
        t.cond && (run (sleepStep false (.addr 1)) [.release 1] t).isSome) = true := by
    decide +kernel
  obtain ⟨s, hs, hrun⟩ := (Option.any_eq_true _ _).mp hrun
  obtain ⟨hpc, hrun⟩ := Bool.and_eq_true_iff.mp hrun
  obtain ⟨t, ht, hrun⟩ := (Option.any_eq_true _ _).mp hrun
  obtain ⟨hc, hu⟩ := Bool.and_eq_true_iff.mp hrun
  obtain ⟨u, hu⟩ := Option.isSome_iff_exists.mp hu
  have hp : EndsWakeup 1 s := ⟨true, 2, of_decide_eq_true hpc, le_refl 2⟩
  exact ⟨s, t, u, hs, ht, hc, hu, no_lost_wakeup 2 false (.addr 1) false handover [.release 1] 1
    s t u hs hp ht hc (by simp) hu⟩

end OsPlayground
