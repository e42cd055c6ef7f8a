import Mathlib.Data.Option.Basic
import Mathlib.Data.List.Basic

/-!
# Runs of a labelled step function

A system is a partial step function `step : E → S → Option S`: the state after an event, or `none`
when the event cannot happen.

* `run`: the state after a list of events; `run_inv`.
* `Along`: every step of a run meets a relation; `Throughout`: every state visited does.
* **`throughout_of_along`**: what one step preserves under a condition, a run preserves.
* `along_of_throughout`: the converse, when a step that breaks the condition breaks the property.
* **`throughout_iff_along`**: both, so the property holds throughout a run exactly when every step
  meets the condition.
* `throughout_iff_along_of_keeps`: the same, for an invariant kept only under the condition.
-/

namespace Lib

variable {S E : Type} {step : E → S → Option S}

variable (step) in
/-- The state after the events `es`, if every one of them can happen. -/
def run : List E → S → Option S
  | [], s => some s
  | e :: es, s => (step e s).bind (run es)

variable (step) in
/-- Every step of the run on `es` meets `P`. -/
def Along (P : S → E → S → Prop) : List E → S → Prop
  | [], _ => True
  | e :: es, s => ∀ s', step e s = some s' → P s e s' ∧ Along P es s'

variable (step) in
/-- Every state visited by the run on `es` meets `Q`. -/
def Throughout (Q : S → Prop) : List E → S → Prop
  | [], s => Q s
  | e :: es, s => Q s ∧ ∀ s', step e s = some s' → Throughout Q es s'

theorem run_cons {e : E} {es : List E} {s t : S} :
    run step (e :: es) s = some t ↔ ∃ s', step e s = some s' ∧ run step es s' = some t := by
  simp [run, Option.bind_eq_some_iff]

theorem Along.mono {P P' : S → E → S → Prop} (hP : ∀ s e s', P s e s' → P' s e s') {es : List E}
    {s : S} (h : Along step P es s) : Along step P' es s := by
  induction es generalizing s with
  | nil => trivial
  | cons e es ih => exact fun s' hs => ⟨hP _ _ _ (h s' hs).1, ih (h s' hs).2⟩

theorem Along.at {P : S → E → S → Prop} {es fs : List E} {e : E} {s t t' : S}
    (h : Along step P (es ++ e :: fs) s) (hr : run step es s = some t) (he : step e t = some t') :
    P t e t' := by
  induction es generalizing s with
  | nil =>
    obtain rfl : s = t := by simpa [run] using hr
    exact (h t' he).1
  | cons e' es ih =>
    obtain ⟨s', hs, hr⟩ := run_cons.mp hr
    exact ih (h s' hs).2 hr

theorem along_of_forall {P : S → E → S → Prop} {es : List E} (s : S)
    (h : ∀ e ∈ es, ∀ s s', P s e s') : Along step P es s := by
  induction es generalizing s with
  | nil => trivial
  | cons e es ih =>
    exact fun s' _ => ⟨h e (by simp) s s', ih s' fun e' he' => h e' (List.mem_cons_of_mem _ he')⟩

theorem Throughout.mono {Q Q' : S → Prop} (hQ : ∀ s, Q s → Q' s) {es : List E} {s : S}
    (h : Throughout step Q es s) : Throughout step Q' es s := by
  induction es generalizing s with
  | nil => exact hQ s h
  | cons e es ih => exact ⟨hQ s h.1, fun s' hs => ih (h.2 s' hs)⟩

theorem Throughout.start {Q : S → Prop} {es : List E} {s : S} (h : Throughout step Q es s) :
    Q s := by
  cases es with
  | nil => exact h
  | cons e es => exact h.1

theorem Throughout.end {Q : S → Prop} {es : List E} {s t : S} (h : Throughout step Q es s)
    (hr : run step es s = some t) : Q t := by
  induction es generalizing s with
  | nil =>
    obtain rfl : s = t := by simpa [run] using hr
    exact h
  | cons e es ih =>
    obtain ⟨s', hs, hr⟩ := run_cons.mp hr
    exact ih (h.2 s' hs) hr

/-- **The invariant rule.** What every step preserves under `P`, a run all of whose steps meet `P`
preserves, in every state it visits. -/
theorem throughout_of_along {I : S → Prop} {P : S → E → S → Prop}
    (hstep : ∀ s e s', I s → P s e s' → step e s = some s' → I s') {es : List E} {s : S}
    (hs : I s) (h : Along step P es s) : Throughout step I es s := by
  induction es generalizing s with
  | nil => exact hs
  | cons e es ih =>
    refine ⟨hs, fun s' he => ?_⟩
    exact ih (hstep s e s' hs (h s' he).1 he) (h s' he).2

theorem along_true (es : List E) (s : S) : Along step (fun _ _ _ => True) es s := by
  induction es generalizing s with
  | nil => trivial
  | cons e es ih => exact fun s' _ => ⟨trivial, ih s'⟩

theorem throughout_of_inv {I : S → Prop} (hstep : ∀ s e s', I s → step e s = some s' → I s')
    {es : List E} {s : S} (hs : I s) : Throughout step I es s :=
  throughout_of_along (P := fun _ _ _ => True) (fun s e s' h _ => hstep s e s' h) hs
    (along_true es s)

theorem run_inv {I : S → Prop} (hstep : ∀ s e s', I s → step e s = some s' → I s')
    {es : List E} {s t : S} (hs : I s) (h : run step es s = some t) : I t :=
  (throughout_of_inv hstep hs).end h

theorem along_of_inv {I : S → Prop} (hstep : ∀ s e s', I s → step e s = some s' → I s')
    {P : S → E → S → Prop} (hP : ∀ s e s', I s → step e s = some s' → P s e s') {es : List E}
    {s : S} (hs : I s) : Along step P es s := by
  induction es generalizing s with
  | nil => trivial
  | cons e es ih => exact fun s' he => ⟨hP s e s' hs he, ih (hstep s e s' hs he)⟩

theorem along_of_along {I : S → Prop} {P R : S → E → S → Prop}
    (hstep : ∀ s e s', I s → P s e s' → step e s = some s' → I s')
    (hR : ∀ s e s', I s → P s e s' → step e s = some s' → R s e s') {es : List E} {s : S}
    (hs : I s) (h : Along step P es s) : Along step R es s := by
  induction es generalizing s with
  | nil => trivial
  | cons e es ih =>
    intro s' he
    exact ⟨hR s e s' hs (h s' he).1 he, ih (hstep s e s' hs (h s' he).1 he) (h s' he).2⟩

theorem along_of_throughout {I Q : S → Prop} {P : S → E → S → Prop}
    (hI : ∀ s e s', I s → step e s = some s' → I s')
    (hP : ∀ s e s', I s → Q s → step e s = some s' → Q s' → P s e s') {es : List E} {s : S}
    (hs : I s) (h : Throughout step Q es s) : Along step P es s := by
  induction es generalizing s with
  | nil => trivial
  | cons e es ih =>
    intro s' he
    exact ⟨hP s e s' hs h.1 he (h.2 s' he).start, ih (hI s e s' hs he) (h.2 s' he)⟩

/-- **Exactness along runs.** `I` is invariant; a step that meets `P` keeps `Q`; a step that keeps
`Q` meets `P`. Then a run keeps `Q` throughout if and only if every step of it meets `P`. -/
theorem throughout_iff_along {I Q : S → Prop} {P : S → E → S → Prop}
    (hI : ∀ s e s', I s → step e s = some s' → I s')
    (hQ : ∀ s e s', I s → Q s → P s e s' → step e s = some s' → Q s')
    (hP : ∀ s e s', I s → Q s → step e s = some s' → Q s' → P s e s') {es : List E} {s : S}
    (hs : I s) (hq : Q s) : Throughout step Q es s ↔ Along step P es s := by
  refine ⟨along_of_throughout hI hP hs, fun h => ?_⟩
  have hIQ : Throughout step (fun s => I s ∧ Q s) es s :=
    throughout_of_along (fun s e s' h hp he => ⟨hI s e s' h.1 he, hQ s e s' h.1 h.2 hp he⟩)
      ⟨hs, hq⟩ h
  exact hIQ.mono fun _ h => h.2

/-- **Exactness along runs**, when `I` is only kept under `P`: a step from `I` that ends with `Q`
meets `P`, and one that meets `P` keeps `I`, which implies `Q`. -/
theorem throughout_iff_along_of_keeps {I Q : S → Prop} {P : S → E → S → Prop}
    (hIQ : ∀ s, I s → Q s) (hI : ∀ s e s', I s → P s e s' → step e s = some s' → I s')
    (hP : ∀ s e s', I s → step e s = some s' → Q s' → P s e s') {es : List E} {s : S} (hs : I s) :
    Throughout step Q es s ↔ Along step P es s := by
  refine ⟨fun h => ?_, fun h => (throughout_of_along hI hs h).mono hIQ⟩
  induction es generalizing s with
  | nil => trivial
  | cons e es ih =>
    intro s' he
    have hp := hP s e s' hs he (h.2 s' he).start
    exact ⟨hp, ih (hI s e s' hs hp he) (h.2 s' he)⟩

end Lib
