import OsPlayground.Proc.Fifo

/-!
# Which runnable processes are queued

* `Ptable.Complete`: a process is runnable exactly when it is queued, once, at its priority, and so
  `scheduler` finds a process to run exactly when `schedulerR` does.
* `Ptable.Covered`: the half of it that can fail, an invariant of every step but one.
* **`complete_iff`**: a run keeps the queues complete exactly when none of its `kill`s hits a
  sleeping process, since `kill` makes it runnable without `qpush`; `kill_loses_process` is a run.
-/

namespace OsPlayground

open Lib

namespace Ptable

/-- **Completeness of the run queue.** -/
structure Complete (t : Ptable) : Prop where
  queued : ∀ p, (t.proc p).state = .runnable ↔
    (t.level (t.proc p).priority).count p = 1 ∧
      ∀ q < NPROCQ, q ≠ (t.proc p).priority → p ∉ t.level q
  dispatches : (schedule t).2.isSome ↔ (scheduleR t).isSome

/-- Every runnable process is in the level of its priority. -/
def Covered (t : Ptable) : Prop :=
  ∀ p, (t.proc p).state = .runnable → p ∈ t.level (t.proc p).priority

variable {t t' : Ptable} {p : Slot}

theorem scheduleR_isSome : (scheduleR t).isSome ↔ ∃ p, (t.proc p).state = .runnable := by
  simp [scheduleR]

theorem schedule_isSome (h : t.Queues) :
    (schedule t).2.isSome ↔ ∃ q < NPROCQ, ∃ p, p ∈ t.level q := by
  rcases schedule_cases h with ⟨he, hs⟩ | ⟨q, hq, p, l, hl, -, hs⟩
  · rw [hs]
    constructor
    · intro h
      cases h
    · rintro ⟨q, hq, p, hp⟩
      rw [he q hq] at hp
      cases hp
  · rw [hs]
    exact ⟨fun _ => ⟨q, hq, p, by simp [hl]⟩, fun _ => rfl⟩

theorem complete_iff_covered (h : t.Queues) : t.Complete ↔ t.Covered := by
  constructor
  · intro hc p hp
    have := ((hc.queued p).mp hp).1
    exact List.count_pos_iff.mp (by omega)
  · intro hc
    refine ⟨fun p => ⟨fun hp => ⟨?_, fun q hq hne hm => ?_⟩, fun hp => ?_⟩, ?_⟩
    · exact List.count_eq_one_of_mem (h.level _ (h.priority p)).queue.nodup (hc p hp)
    · exact hne ((h.level q hq).priority p hm).symm
    · exact (h.level _ (h.priority p)).state p (List.count_pos_iff.mp (by omega))
    · rw [schedule_isSome h, scheduleR_isSome]
      constructor
      · rintro ⟨q, hq, p, hp⟩
        exact ⟨p, (h.level q hq).state p hp⟩
      · rintro ⟨p, hp⟩
        exact ⟨_, h.priority p, p, hc p hp⟩

theorem Covered.enqueues {ps : List Slot} (hc : t.Covered) (hq : t.Queues)
    (h : Enqueues t t' ps) : t'.Covered := by
  intro p hp
  rcases h.covers p hp with hr | hr
  · obtain ⟨hm, hprio⟩ := h.mem_level (hq.priority p) (hc p hr)
    rw [hprio]
    exact hm
  · exact h.mem_of_pushed hr

theorem Covered.dequeues {q : ℕ} (hc : t.Covered) (hq : t.Queues) (h : Dequeues t t' q p)
    (hp : (t'.proc p).state = .running) (hx : ∀ x, x ≠ p → t'.proc x = t.proc x) : t'.Covered := by
  intro x hr
  have hxp : x ≠ p := by
    rintro rfl
    rw [hp] at hr
    cases hr
  rw [hx x hxp] at hr ⊢
  have hm := hc x hr
  by_cases hqx : (t.proc x).priority = q
  · rw [hqx, h.front] at hm
    rw [hqx]
    exact (List.mem_cons.mp hm).resolve_left hxp
  · rw [h.rest _ (hq.priority x) hqx]
    exact hm

end Ptable

section Runs

variable {t t' : Ptable} {e : Event}

theorem covered_step (h : t.Good) (hc : t.Covered) (hk : ¬ KillsSleeper t e)
    (hstep : step e t = some t') : t'.Covered := by
  by_cases hd : ∃ c, e = .dispatch c
  · obtain ⟨c, rfl⟩ := hd
    rcases step_dispatch h.queues hstep with ⟨-, rfl⟩ | ⟨q, p, hdeq, hp, -, hx⟩
    · exact hc
    · exact hc.dequeues h.queues hdeq hp hx
  · obtain ⟨ps, hps⟩ := step_enqueues h.inv h.queues (not_exists.mp hd) hk hstep
    exact hc.enqueues h.queues hps

theorem not_covered_of_kill (h : t.Good) (hk : KillsSleeper t e) (hstep : step e t = some t') :
    t'.lock = .free ∧ ¬ t'.Covered := by
  have hpush := step_killsSleeper h.queues hk hstep
  obtain ⟨pid, p, rfl, hkp, hs⟩ := hk
  simp only [step, locked_eq_some, Option.some.injEq, kill, hkp] at hstep
  obtain ⟨hl, rfl⟩ := hstep
  refine ⟨hl, fun hc => ?_⟩
  have hm := hc p (by simp [hs])
  have hprio := hpush.queues.priority p
  rw [hpush.level _ hprio, List.filter_nil, List.append_nil] at hm
  have := (h.queues.level _ hprio).state p hm
  rw [hs] at this
  cases this

theorem boot_covered : boot.Covered := fun p hp => by cases hp

/-- **When the run queue is complete.** In every table of a run with the lock free, if and only if
no `kill` of the run hits a sleeping process. -/
theorem complete_iff (es : List Event) :
    Throughout step (fun t => t.lock = .free → t.Complete) es boot ↔
      Along step (fun t e _ => ¬ KillsSleeper t e) es boot := by
  constructor
  · refine along_of_throughout (I := Ptable.Good) (fun _ _ _ h hs => good_step h hs) ?_ boot_good
    intro t e t' hg _ hs hq' hk
    obtain ⟨hl, hnc⟩ := not_covered_of_kill hg hk hs
    exact hnc ((Ptable.complete_iff_covered (good_step hg hs).queues).mp (hq' hl))
  · intro h
    have hcov : Throughout step (fun t => t.Good ∧ t.Covered) es boot :=
      throughout_of_along (fun t e t' hI hk hs => ⟨good_step hI.1 hs, covered_step hI.1 hI.2 hk hs⟩)
        ⟨boot_good, boot_covered⟩ h
    exact hcov.mono fun t ht _ => (Ptable.complete_iff_covered ht.1.queues).mpr ht.2

/-- Init forks a child and goes to sleep; the child kills it, and no scheduler will ever run it
again. -/
theorem kill_loses_process : ∃ t, run step [.userinit, .dispatch 0, .resume 0, .allocproc 0,
    .allocprocInit 0 true, .forkCopy 0 true, .forkCommit 0, .sleep 0 7, .schedReturn 0,
    .dispatch 0, .resume 0, .kill 1] boot = some t ∧ t.lock = .free ∧
      (t.proc 0).state = .runnable ∧ (∀ q < NPROCQ, t.level q = []) ∧ (schedule t).2 = none ∧
      scheduleR t = some 0 ∧ ¬ t.Complete := by
  have hrun : ((run step [.userinit, .dispatch 0, .resume 0, .allocproc 0, .allocprocInit 0 true,
      .forkCopy 0 true, .forkCommit 0, .sleep 0 7, .schedReturn 0, .dispatch 0, .resume 0,
      .kill 1] boot).any fun t => t.lock = .free ∧ (t.proc 0).state = .runnable ∧
        (∀ q < NPROCQ, t.level q = []) ∧ (schedule t).2 = none ∧ scheduleR t = some 0) = true := by
    decide +kernel
  obtain ⟨t, ht, hP⟩ := (Option.any_eq_true _ _).mp hrun
  obtain ⟨hl, hr, hlev, hs, hR⟩ := of_decide_eq_true hP
  refine ⟨t, ht, hl, hr, hlev, hs, hR, fun hc => ?_⟩
  have := hc.dispatches
  rw [hs, hR] at this
  simp at this

end Runs

end OsPlayground
