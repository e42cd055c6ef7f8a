import Mathlib.Data.List.Induction
import Mathlib.Logic.Function.Basic
import OsPlayground.Lib.Run

/-!
# Simulation of runs, and volumes

* `shown`: what a run shows of itself; **`run_shown`**: a system whose steps are steps of another.
* `Volume`, `VolumeEvent`, `volumeStep`: contents that operations change, and of which a crash leaves
  what was kept when no operation was in progress.
* **`kept_moment`**: what a simulation of a volume keeps was its contents at some such moment.
-/

namespace Lib

/-! ## Simulation -/

section Simulation

variable {S E T F : Type} {step : E → S → Option S} {astep : F → T → Option T} {obs : E → S → List F}
  {abs : S → T} {I : S → Prop} {P : S → E → S → Prop} {es fs : List E} {s t : S}

variable (step obs) in
/-- The events that a run shows. -/
def shown : List E → S → List F
  | [], _ => []
  | e :: es, s => obs e s ++ ((step e s).map (shown es)).getD []

theorem run_append : run step (es ++ fs) s = some t ↔
    ∃ u, run step es s = some u ∧ run step fs u = some t := by
  induction es generalizing s with
  | nil => simp [run]
  | cons e es ih =>
    rw [List.cons_append, run_cons]
    constructor
    · rintro ⟨s', he, hr⟩
      obtain ⟨u, hu, ht⟩ := ih.1 hr
      exact ⟨u, run_cons.2 ⟨s', he, hu⟩, ht⟩
    · rintro ⟨u, hu, ht⟩
      obtain ⟨s', he, hr⟩ := run_cons.1 hu
      exact ⟨s', he, ih.2 ⟨u, hr, ht⟩⟩

theorem run_one {e : E} : run step [e] s = some t ↔ step e s = some t := by simp [run]

theorem along_cons {e : E} {P : S → E → S → Prop} (he : step e s = some t) (hp : P s e t)
    (h : Along step P es t) : Along step P (e :: es) s := fun t' ht => by
  obtain rfl := Option.some.inj (he.symm.trans ht)
  exact ⟨hp, h⟩

theorem Along.left (h : Along step P (es ++ fs) s) : Along step P es s := by
  induction es generalizing s with
  | nil => trivial
  | cons e es ih => exact fun s' he => ⟨(h s' he).1, ih (h s' he).2⟩

theorem Along.right (h : Along step P (es ++ fs) s) (hr : run step es s = some t) :
    Along step P fs t := by
  induction es generalizing s with
  | nil =>
    obtain rfl : s = t := by simpa [run] using hr
    exact h
  | cons e es ih =>
    obtain ⟨s', he, hr⟩ := run_cons.1 hr
    exact ih (h s' he).2 hr

/-- **Simulation.** If every step shows events of the second system, so does every run. -/
theorem run_shown (hI : ∀ s e s', I s → P s e s' → step e s = some s' → I s')
    (hsim : ∀ s e s', I s → P s e s' → step e s = some s' →
      run astep (obs e s) (abs s) = some (abs s')) (hs : I s) (hP : Along step P es s)
    (hr : run step es s = some t) : run astep (shown step obs es s) (abs s) = some (abs t) := by
  induction es generalizing s with
  | nil =>
    obtain rfl : s = t := by simpa [run] using hr
    rfl
  | cons e es ih =>
    obtain ⟨s', he, hr⟩ := run_cons.1 hr
    obtain ⟨hp, hP⟩ := hP s' he
    rw [shown, he]
    exact run_append.2 ⟨abs s', hsim s e s' hs hp he, ih (hI s e s' hs hp he) hP hr⟩

end Simulation

/-! ## Volumes -/

/-- Contents, what of them is kept, and the number of operations in progress. -/
structure Volume (K V : Type) where
  kept : K → V
  current : K → V
  busy : ℕ

/-- What a client of the volume does, and what a crash makes of it. -/
inductive VolumeEvent (K V : Type)
  | start
  | write (k : K) (v : V)
  | stop
  /-- All that was written is kept. -/
  | keep
  | crash

section Volumes

variable {K V : Type} [DecidableEq K]

/-- One step of a volume. -/
def volumeStep : VolumeEvent K V → Volume K V → Option (Volume K V)
  | .start, a => some { a with busy := a.busy + 1 }
  | .write k v, a =>
    if 0 < a.busy then some { a with current := Function.update a.current k v } else none
  | .stop, a => if 0 < a.busy then some { a with busy := a.busy - 1 } else none
  | .keep, a => if a.busy = 0 then some { a with kept := a.current } else none
  | .crash, a => some ⟨a.kept, a.kept, 0⟩

/-- A step changes what is kept only when no operation is in progress, and to the contents then. -/
theorem volumeStep_kept {e : VolumeEvent K V} {a a' : Volume K V} (h : volumeStep e a = some a') :
    a'.kept = a.kept ∨ a.busy = 0 ∧ a'.kept = a.current := by
  cases e with
  | start =>
    cases h
    exact .inl rfl
  | write k v =>
    obtain ⟨-, h⟩ := Option.ite_none_right_eq_some.1 h
    cases h
    exact .inl rfl
  | stop =>
    obtain ⟨-, h⟩ := Option.ite_none_right_eq_some.1 h
    cases h
    exact .inl rfl
  | keep =>
    obtain ⟨hbusy, h⟩ := Option.ite_none_right_eq_some.1 h
    cases h
    exact .inr ⟨hbusy, rfl⟩
  | crash =>
    cases h
    exact .inl rfl

variable {S E : Type} {step : E → S → Option S} {obs : E → S → Option (VolumeEvent K V)}
  {abs : S → Volume K V} {I : S → Prop} {P : S → E → S → Prop} {es : List E} {s t : S}

/-- **What a run keeps** was the contents at a moment of it when no operation was in progress. -/
theorem kept_moment (hI : ∀ s e s', I s → P s e s' → step e s = some s' → I s')
    (hsim : ∀ s e s', I s → P s e s' → step e s = some s' →
      run volumeStep (obs e s).toList (abs s) = some (abs s')) (hs : I s)
    (hbusy : (abs s).busy = 0) (hkept : (abs s).kept = (abs s).current)
    (hP : Along step P es s) (hr : run step es s = some t) :
    ∃ fs gs u, es = fs ++ gs ∧ run step fs s = some u ∧ (abs u).busy = 0 ∧
      (abs t).kept = (abs u).current := by
  induction es using List.reverseRecOn generalizing t with
  | nil =>
    obtain rfl : s = t := by simpa [run] using hr
    exact ⟨[], [], s, rfl, rfl, hbusy, hkept⟩
  | append_singleton es e ih =>
    obtain ⟨u, hu, ht⟩ := run_append.1 hr
    have he : step e u = some t := run_one.1 ht
    have hIu : I u := (throughout_of_along hI hs hP.left).end hu
    have hone := hsim u e t hIu (hP.at hu he) he
    have hsame : (abs t).kept = (abs u).kept ∨ (abs u).busy = 0 ∧ (abs t).kept = (abs u).current := by
      cases ho : obs e u with
      | none =>
        rw [ho] at hone
        exact .inl (congrArg Volume.kept (Option.some.inj hone)).symm
      | some f =>
        rw [ho] at hone
        exact volumeStep_kept (run_one.1 hone)
    rcases hsame with hsame | ⟨hu0, hnow⟩
    · -- as before
      obtain ⟨fs, gs, w, rfl, hw, hw0, hwk⟩ := ih hP.left hu
      exact ⟨fs, gs ++ [e], w, List.append_assoc .., hw, hw0, hsame.trans hwk⟩
    · exact ⟨es, [e], u, rfl, hu, hu0, hnow⟩

end Volumes

end Lib
