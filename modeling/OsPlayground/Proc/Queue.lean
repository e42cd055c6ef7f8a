import OsPlayground.Lib.Links
import OsPlayground.Proc.Model

/-!
# The run queue as FIFO lists

* `Ptable.level t q`: the first `count[q]` processes reached through `next` from `pqueue[q].head`.
* `Ptable.Queues`: every level represents the list `level t q`, of runnable processes whose priority
  is the level, longest waiting first.
* `Pushes t t' ps`: the table `t'` differs from `t` by the pushes of `ps`, in this order, each at
  the end of the level of its priority; `Enqueues t t' ps`: moreover every process that became
  runnable is in `ps`. Closed under composition (`Enqueues.trans`); **`enqueue`** is the single push.
* **`schedule_cases`**, `dequeue`: what a pass of `scheduler` chooses and removes.
-/

namespace OsPlayground

open Lib

/-! ## Field lemmas -/

namespace Ptable

variable (t : Ptable) (p q : Slot) (f : Proc → Proc)

@[simp] theorem setProc_self : (t.setProc p f).proc p = f (t.proc p) := Function.update_self _ _ _

theorem setProc_of_ne {p q : Slot} (h : q ≠ p) : (t.setProc p f).proc q = t.proc q :=
  Function.update_of_ne h _ _

theorem setProc_apply : (t.setProc p f).proc q = if q = p then f (t.proc p) else t.proc q := by
  by_cases h : q = p
  · subst h; simp
  · rw [setProc_of_ne t f h, if_neg h]

theorem forall_setProc {P : Slot → Proc → Prop} {f : Proc → Proc} (h : ∀ x, P x (t.proc x))
    (hp : P p (f (t.proc p))) (x : Slot) : P x ((t.setProc p f).proc x) := by
  by_cases hx : x = p
  · subst hx
    rw [setProc_self]
    exact hp
  · rw [setProc_of_ne t f hx]
    exact h x

@[simp] theorem setProc_pqueue : (t.setProc p f).pqueue = t.pqueue := rfl
@[simp] theorem setProc_count : (t.setProc p f).count = t.count := rfl
@[simp] theorem setProc_lock : (t.setProc p f).lock = t.lock := rfl
@[simp] theorem setProc_cpu : (t.setProc p f).cpu = t.cpu := rfl
@[simp] theorem setProc_nextpid : (t.setProc p f).nextpid = t.nextpid := rfl
@[simp] theorem setProc_initproc : (t.setProc p f).initproc = t.initproc := rfl
@[simp] theorem setProc_pushed : (t.setProc p f).pushed = t.pushed := rfl

theorem setProc_setProc (g : Proc → Proc) :
    (t.setProc p f).setProc p g = t.setProc p fun r => g (f r) := by
  simp [setProc]

end Ptable

/-- `r'` differs from `r` at most in the fields that `qpush` writes. -/
def Proc.Relinked (r r' : Proc) : Prop := r' = { r with next := r'.next, timepiece := r'.timepiece }

namespace Proc.Relinked

variable {r r' r'' : Proc}

theorem refl (r : Proc) : Relinked r r := rfl

theorem next (r : Proc) (n : Option Slot) : Relinked r { r with next := n } := rfl

theorem timepiece (r : Proc) (n : ℕ) : Relinked r { r with timepiece := n } := rfl

theorem trans (h : Relinked r r') (h' : Relinked r' r'') : Relinked r r'' := by
  unfold Relinked at *
  rw [h', h]

theorem setProc (t : Ptable) (p x : Slot) (f : Proc → Proc)
    (hf : Relinked (t.proc p) (f (t.proc p))) :
    Relinked (t.proc x) ((t.setProc p f).proc x) := by
  by_cases h : x = p
  · subst h
    rw [t.setProc_self]
    exact hf
  · rw [t.setProc_of_ne f h]
    exact refl _

theorem setNext (t : Ptable) (z : Option Slot) (np x : Slot) :
    Relinked (t.proc x) ((t.setNext z np).proc x) := by
  cases z with
  | none => exact refl _
  | some z => exact setProc t z x (fun r => { r with next := some np }) (next _ _)

end Proc.Relinked

section Qpush

variable (np x : Slot) (t : Ptable)

theorem qpush_relinked : Proc.Relinked (t.proc x) ((qpush np t).proc x) := by
  unfold qpush
  dsimp only
  refine Proc.Relinked.trans ?_ (.setProc _ np x _ (.timepiece _ _))
  split_ifs
  · exact .setProc t np x (fun r => { r with next := some np }) (.next _ _)
  · exact .trans (.setProc t np x (fun r => { r with next := _ }) (.next _ _)) (.setNext _ _ np x)

@[simp] theorem qpush_state : ((qpush np t).proc x).state = (t.proc x).state := by
  rw [qpush_relinked np x t]

@[simp] theorem qpush_priority : ((qpush np t).proc x).priority = (t.proc x).priority := by
  rw [qpush_relinked np x t]

@[simp] theorem qpush_call : ((qpush np t).proc x).call = (t.proc x).call := by
  rw [qpush_relinked np x t]

@[simp] theorem Ptable.setNext_pqueue (z : Option Slot) : (t.setNext z np).pqueue = t.pqueue := by
  cases z <;> rfl

@[simp] theorem Ptable.setNext_count (z : Option Slot) : (t.setNext z np).count = t.count := by
  cases z <;> rfl

theorem Ptable.setNext_other (z : Option Slot) : (t.setNext z np).lock = t.lock ∧
    (t.setNext z np).cpu = t.cpu ∧ (t.setNext z np).nextpid = t.nextpid ∧
    (t.setNext z np).initproc = t.initproc ∧ (t.setNext z np).pushed = t.pushed := by
  cases z <;> exact ⟨rfl, rfl, rfl, rfl, rfl⟩

theorem qpush_other : (qpush np t).lock = t.lock ∧ (qpush np t).cpu = t.cpu ∧
    (qpush np t).nextpid = t.nextpid ∧ (qpush np t).initproc = t.initproc ∧
    (qpush np t).pushed = t.pushed ++ [np] := by
  unfold qpush
  dsimp only
  split_ifs
  · simp
  · simp [Ptable.setNext_other]

end Qpush

/-! ## Levels -/

namespace Ptable

/-- The `next` links. -/
def links (t : Ptable) : Slot → Option Slot := fun p => (t.proc p).next

/-- The first `count[q]` processes reached through `next` from `pqueue[q].head`. -/
def level (t : Ptable) (q : ℕ) : List Slot := follow t.links (t.pqueue q).head (t.count q)

/-- Level `q` represents the list `l`. -/
structure IsLevel (t : Ptable) (q : ℕ) (l : List Slot) : Prop where
  queue : IsQueue t.links (t.pqueue q).head (t.pqueue q).last (t.count q) l
  state : ∀ p ∈ l, (t.proc p).state = .runnable
  priority : ∀ p ∈ l, (t.proc p).priority = q
  order : l.Pairwise (Waited t.pushed)
  logged : ∀ p ∈ l, p ∈ t.pushed

/-- **The queue invariant.** -/
structure Queues (t : Ptable) : Prop where
  level : ∀ q < NPROCQ, t.IsLevel q (t.level q)
  priority : ∀ p, (t.proc p).priority < NPROCQ

theorem IsLevel.level_eq {t : Ptable} {q : ℕ} {l : List Slot} (h : t.IsLevel q l) :
    t.level q = l := h.queue.follow_eq

theorem IsLevel.frame {t t' : Ptable} {q : ℕ} {l : List Slot} (h : t.IsLevel q l)
    (hq : t'.pqueue q = t.pqueue q) (hc : t'.count q = t.count q) (hl : t'.pushed = t.pushed)
    (hp : ∀ p ∈ l, (t'.proc p).next = (t.proc p).next ∧ (t'.proc p).state = (t.proc p).state ∧
      (t'.proc p).priority = (t.proc p).priority) : t'.IsLevel q l := by
  refine ⟨?_, fun p h' => ?_, fun p h' => ?_, by rw [hl]; exact h.order, by rw [hl]; exact h.logged⟩
  · rw [hq, hc]
    exact h.queue.congr fun p h' => (hp p h').1
  · rw [(hp p h').2.1, h.state p h']
  · rw [(hp p h').2.2, h.priority p h']

end Ptable

/-- `t'` is `t` after the pushes of `ps`. -/
structure Pushes (t t' : Ptable) (ps : List Slot) : Prop where
  queues : t'.Queues
  log : t'.pushed = t.pushed ++ ps
  level : ∀ q < NPROCQ, t'.level q = t.level q ++ ps.filter fun p => (t'.proc p).priority = q

namespace Pushes

variable {t t' : Ptable} {ps : List Slot}

theorem mem_level (h : Pushes t t' ps) {q : ℕ} (hq : q < NPROCQ) {p : Slot}
    (hp : p ∈ t.level q) : p ∈ t'.level q ∧ (t'.proc p).priority = q := by
  have hm : p ∈ t'.level q := by
    rw [h.level q hq]
    exact List.mem_append_left _ hp
  exact ⟨hm, (h.queues.level q hq).priority p hm⟩

theorem mem_of_pushed (h : Pushes t t' ps) {p : Slot} (hp : p ∈ ps) :
    p ∈ t'.level (t'.proc p).priority := by
  rw [h.level _ (h.queues.priority p)]
  refine List.mem_append_right _ (List.mem_filter.mpr ⟨hp, by simp⟩)

/-- **Frame.** Nothing is pushed if runnable processes keep their links, states and priorities. -/
theorem frame (h : t.Queues) (hq : t'.pqueue = t.pqueue) (hc : t'.count = t.count)
    (hl : t'.pushed = t.pushed)
    (hp : ∀ p, (t.proc p).state = .runnable → (t'.proc p).next = (t.proc p).next ∧
      (t'.proc p).state = (t.proc p).state ∧ (t'.proc p).priority = (t.proc p).priority)
    (hprio : ∀ p, (t'.proc p).priority < NPROCQ) : Pushes t t' [] := by
  have hlev : ∀ q < NPROCQ, t'.IsLevel q (t.level q) := fun q hq' =>
    (h.level q hq').frame (congrFun hq q) (congrFun hc q) hl fun p hm =>
      hp p ((h.level q hq').state p hm)
  refine ⟨⟨fun q hq' => ?_, hprio⟩, by simp [hl], fun q hq' => ?_⟩
  · rw [(hlev q hq').level_eq]
    exact hlev q hq'
  · rw [(hlev q hq').level_eq]
    simp

end Pushes

/-- `t'` is `t` after the pushes of `ps`, and every process that became runnable is in `ps`. -/
structure Enqueues (t t' : Ptable) (ps : List Slot) : Prop extends Pushes t t' ps where
  covers : ∀ p, (t'.proc p).state = .runnable → (t.proc p).state = .runnable ∨ p ∈ ps

namespace Enqueues

variable {t t' t'' : Ptable} {ps ps' : List Slot}

/-- **Composition.** A process pushed first keeps its priority, since it is queued from then on. -/
theorem trans (h : Enqueues t t' ps) (h' : Enqueues t' t'' ps') : Enqueues t t'' (ps ++ ps') := by
  have hprio : ∀ p ∈ ps, (t''.proc p).priority = (t'.proc p).priority := fun p hp =>
    (h'.mem_level (h.queues.priority p) (h.mem_of_pushed hp)).2
  refine ⟨⟨h'.queues, by rw [h'.log, h.log, List.append_assoc], fun q hq => ?_⟩, fun p hp => ?_⟩
  · rw [h'.level q hq, h.level q hq, List.filter_append, List.append_assoc]
    congr 2
    exact List.filter_congr fun p hp => by rw [hprio p hp]
  · rcases h'.covers p hp with hr | hr
    · rcases h.covers p hr with hr | hr
      · exact .inl hr
      · exact .inr (List.mem_append_left _ hr)
    · exact .inr (List.mem_append_right _ hr)

/-- **Frame.** Nothing is pushed if moreover no process becomes runnable. -/
theorem frame (h : t.Queues) (hq : t'.pqueue = t.pqueue) (hc : t'.count = t.count)
    (hl : t'.pushed = t.pushed)
    (hp : ∀ p, (t.proc p).state = .runnable → (t'.proc p).next = (t.proc p).next ∧
      (t'.proc p).state = (t.proc p).state ∧ (t'.proc p).priority = (t.proc p).priority)
    (hs : ∀ p, (t'.proc p).state = .runnable → (t.proc p).state = .runnable)
    (hprio : ∀ p, (t'.proc p).priority < NPROCQ) : Enqueues t t' [] :=
  ⟨.frame h hq hc hl hp hprio, fun p hr => .inl (hs p hr)⟩

theorem setProc (h : t.Queues) {p : Slot} {f : Proc → Proc} (hp : (t.proc p).state ≠ .runnable)
    (hf : (f (t.proc p)).state ≠ .runnable) (hprio : (f (t.proc p)).priority < NPROCQ) :
    Enqueues t (t.setProc p f) [] := by
  refine frame h rfl rfl rfl (fun x hx => ?_) (fun x hx => ?_) (fun x => ?_)
  · have hne : x ≠ p := by rintro rfl; exact hp hx
    rw [t.setProc_of_ne f hne]
    exact ⟨rfl, rfl, rfl⟩
  · rw [t.setProc_apply] at hx
    split_ifs at hx
    · exact absurd hx hf
    · exact hx
  · rw [t.setProc_apply]
    split_ifs
    · exact hprio
    · exact h.priority x

theorem setProc_same (h : t.Queues) {p : Slot} {f : Proc → Proc}
    (hn : (f (t.proc p)).next = (t.proc p).next) (hs : (f (t.proc p)).state = (t.proc p).state)
    (hprio : (f (t.proc p)).priority = (t.proc p).priority) : Enqueues t (t.setProc p f) [] := by
  have hx : ∀ x, ((t.setProc p f).proc x).next = (t.proc x).next ∧
      ((t.setProc p f).proc x).state = (t.proc x).state ∧
      ((t.setProc p f).proc x).priority = (t.proc x).priority := by
    intro x
    rw [t.setProc_apply]
    split_ifs with hxp
    · subst hxp; exact ⟨hn, hs, hprio⟩
    · exact ⟨rfl, rfl, rfl⟩
  refine frame h rfl rfl rfl (fun x _ => hx x) (fun x hr => ?_) (fun x => ?_)
  · rwa [(hx x).2.1] at hr
  · rw [(hx x).2.2]
    exact h.priority x

theorem of_eq (h : t.Queues) (hp : t'.proc = t.proc) (hq : t'.pqueue = t.pqueue)
    (hc : t'.count = t.count) (hl : t'.pushed = t.pushed) : Enqueues t t' [] :=
  frame h hq hc hl (fun p _ => by rw [hp]; exact ⟨rfl, rfl, rfl⟩) (fun p hr => by rwa [hp] at hr)
    fun p => by rw [hp]; exact h.priority p

end Enqueues

/-! ## One push -/

section Push

variable {t : Ptable} {np : Slot}

theorem qpush_links_empty (hc : t.count (t.proc np).priority = 0) :
    (qpush np t).links = Function.update t.links np (some np) := by
  funext x
  by_cases hx : x = np
  · subst hx
    simp [Ptable.links, qpush, hc]
  · rw [Function.update_of_ne hx]
    simp [Ptable.links, qpush, hc, Ptable.setProc_of_ne _ _ hx]

theorem qpush_links {z : Slot} (hc : t.count (t.proc np).priority ≠ 0)
    (hz : (t.pqueue (t.proc np).priority).last = some z) :
    (qpush np t).links = Function.update (Function.update t.links np
      (t.pqueue (t.proc np).priority).head) z (some np) := by
  funext x
  simp only [Ptable.links, qpush, Nat.le_zero, hc, if_false, hz, Ptable.setNext,
    Ptable.setProc_apply, Function.update_apply, Ptable.setProc_pqueue]
  by_cases hx : x = z
  · subst hx
    by_cases hxn : x = np <;> simp [hxn]
  · by_cases hxn : x = np
    · subst hxn
      simp [hx]
    · simp [hx, hxn]

theorem qpush_pqueue_of_ne {q : ℕ} (hq : q ≠ (t.proc np).priority) :
    (qpush np t).pqueue q = t.pqueue q ∧ (qpush np t).count q = t.count q := by
  unfold qpush
  dsimp only
  split_ifs
  · simp [Function.update_of_ne hq]
  · simp [Function.update_of_ne hq]

theorem qpush_pqueue_empty (hc : t.count (t.proc np).priority = 0) :
    (qpush np t).pqueue (t.proc np).priority = ⟨some np, some np⟩ ∧
      (qpush np t).count (t.proc np).priority = 1 := by
  simp [qpush, hc]

theorem qpush_pqueue (hc : t.count (t.proc np).priority ≠ 0) :
    (qpush np t).pqueue (t.proc np).priority =
        ⟨(t.pqueue (t.proc np).priority).head, some np⟩ ∧
      (qpush np t).count (t.proc np).priority = t.count (t.proc np).priority + 1 := by
  simp [qpush, hc]

/-- Pushing `np` leaves the other levels alone: of their links it writes none. -/
theorem qpush_isLevel_of_ne {q : ℕ} {l l₀ : List Slot} (h : t.IsLevel q l)
    (h₀ : t.IsLevel (t.proc np).priority l₀) (hnp : np ∉ l) (hq : q ≠ (t.proc np).priority) :
    (qpush np t).IsLevel q l := by
  obtain ⟨hpq, hcount⟩ := qpush_pqueue_of_ne hq
  have hlinks : ∀ x ∈ l, (qpush np t).links x = t.links x := by
    intro x hx
    have hxnp : x ≠ np := by rintro rfl; exact hnp hx
    by_cases hc : t.count (t.proc np).priority = 0
    · rw [qpush_links_empty hc, Function.update_of_ne hxnp]
    · have hne : l₀ ≠ [] := h₀.queue.ne_nil (Nat.pos_of_ne_zero hc)
      obtain ⟨z, hz⟩ : ∃ z, l₀.getLast? = some z := ⟨_, List.getLast?_eq_some_getLast hne⟩
      have hxz : x ≠ z := by
        rintro rfl
        have := h₀.priority x (List.mem_of_getLast? hz)
        rw [h.priority x hx] at this
        exact hq this
      rw [qpush_links hc ((h₀.queue.last_eq hne).trans hz), Function.update_of_ne hxz,
        Function.update_of_ne hxnp]
  refine ⟨?_, fun x hx => ?_, fun x hx => ?_, ?_, fun x hx => ?_⟩
  · rw [hpq, hcount]
    exact h.queue.congr hlinks
  · rw [qpush_state, h.state x hx]
  · rw [qpush_priority, h.priority x hx]
  · rw [(qpush_other np t).2.2.2.2]
    exact h.order.imp_of_mem fun {a b} ha _ hab => hab.snoc (by rintro rfl; exact hnp ha)
  · rw [(qpush_other np t).2.2.2.2]
    exact List.mem_append_left _ (h.logged x hx)

/-- **`qpush` appends** to the level of the process's priority. -/
theorem qpush_isLevel {l : List Slot} (h : t.IsLevel (t.proc np).priority l) (hnp : np ∉ l)
    (hs : (t.proc np).state = .runnable) :
    (qpush np t).IsLevel (t.proc np).priority (l ++ [np]) := by
  refine ⟨?_, fun x hx => ?_, fun x hx => ?_, ?_, fun x hx => ?_⟩
  · by_cases hc : t.count (t.proc np).priority = 0
    · obtain ⟨hpq, hcount⟩ := qpush_pqueue_empty hc
      obtain rfl : l = [] := by
        have := h.queue
        rw [hc] at this
        exact this.eq_nil
      rw [qpush_links_empty hc, hpq, hcount]
      exact .push_empty _ np
    · obtain ⟨hpq, hcount⟩ := qpush_pqueue hc
      have hne : l ≠ [] := h.queue.ne_nil (Nat.pos_of_ne_zero hc)
      obtain ⟨z, hz⟩ : ∃ z, l.getLast? = some z := ⟨_, List.getLast?_eq_some_getLast hne⟩
      rw [qpush_links hc ((h.queue.last_eq hne).trans hz), hpq, hcount]
      exact h.queue.push hnp hz
  · rw [qpush_state]
    rcases List.mem_append.mp hx with hx | hx
    · exact h.state x hx
    · rw [List.mem_singleton.mp hx, hs]
  · rw [qpush_priority]
    rcases List.mem_append.mp hx with hx | hx
    · exact h.priority x hx
    · rw [List.mem_singleton.mp hx]
  · rw [(qpush_other np t).2.2.2.2]
    exact pairwise_waited_snoc h.order h.logged hnp
  · rw [(qpush_other np t).2.2.2.2]
    rcases List.mem_append.mp hx with hx | hx
    · exact List.mem_append_left _ (h.logged x hx)
    · exact List.mem_append_right _ hx

end Push

/-- **One push.** `t₀` is `t` after assignments that make `np` runnable. -/
theorem enqueue {t t₀ : Ptable} {np : Slot} (h : t.Queues) (hnp : (t.proc np).state ≠ .runnable)
    (hproc : ∀ x, x ≠ np → t₀.proc x = t.proc x) (hpq : t₀.pqueue = t.pqueue)
    (hcount : t₀.count = t.count) (hlog : t₀.pushed = t.pushed)
    (hs : (t₀.proc np).state = .runnable) (hprio : (t₀.proc np).priority < NPROCQ) :
    Enqueues t (qpush np t₀) [np] := by
  have hmem : ∀ q < NPROCQ, np ∉ t.level q := fun q hq hm => hnp ((h.level q hq).state np hm)
  have hlev₀ : ∀ q < NPROCQ, t₀.IsLevel q (t.level q) := by
    intro q hq
    refine (h.level q hq).frame (congrFun hpq q) (congrFun hcount q) hlog fun x hx => ?_
    rw [hproc x (by rintro rfl; exact hmem q hq hx)]
    exact ⟨rfl, rfl, rfl⟩
  have hlev : ∀ q < NPROCQ, (qpush np t₀).IsLevel q
      (t.level q ++ [np].filter fun p => ((qpush np t₀).proc p).priority = q) := by
    intro q hq
    by_cases hqp : q = (t₀.proc np).priority
    · subst hqp
      simpa using qpush_isLevel (hlev₀ _ hprio) (hmem _ hprio) hs
    · simpa [Ne.symm hqp] using
        qpush_isLevel_of_ne (hlev₀ q hq) (hlev₀ _ hprio) (hmem q hq) hqp
  refine ⟨⟨⟨fun q hq => ?_, fun p => ?_⟩, ?_, fun q hq => (hlev q hq).level_eq⟩, fun p hp => ?_⟩
  · rw [(hlev q hq).level_eq]
    exact hlev q hq
  · rw [qpush_priority]
    by_cases hpn : p = np
    · rw [hpn]; exact hprio
    · rw [hproc p hpn]; exact h.priority p
  · rw [(qpush_other np t₀).2.2.2.2, hlog]
  · by_cases hpn : p = np
    · exact .inr (by simp [hpn])
    · rw [qpush_state, hproc p hpn] at hp
      exact .inl hp

/-! ## The choice of `scheduler` -/

theorem discard_eq {t : Ptable} {q : ℕ} {l : List Slot} (h : t.IsLevel q l) (n : ℕ) :
    discard q n t = t := by
  cases n with
  | zero => rfl
  | succ n =>
    unfold discard
    rw [if_neg]
    rintro ⟨hc, hs⟩
    obtain ⟨p, l, rfl⟩ := List.exists_cons_of_ne_nil (h.queue.ne_nil hc)
    rw [h.queue.head_cons] at hs
    exact hs (h.state p (by simp))

theorem scheduleFrom_none {t : Ptable} {n : ℕ} (h : ∀ q < n, t.IsLevel q []) :
    scheduleFrom n t = (t, none) := by
  induction n with
  | zero => rfl
  | succ n ih =>
    have hn := h n (Nat.lt_succ_self n)
    rw [scheduleFrom, discard_eq hn, if_neg, ih fun q hq => h q (by omega)]
    rw [hn.queue.count_eq]
    simp

theorem scheduleFrom_some {t : Ptable} {n q : ℕ} {p : Slot} {l : List Slot} (hq : q < n)
    (h : t.IsLevel q (p :: l)) (hhi : ∀ q', q < q' → q' < n → t.IsLevel q' []) :
    scheduleFrom n t = (popHead q t, some p) := by
  induction n with
  | zero => omega
  | succ n ih =>
    by_cases hqn : q = n
    · subst hqn
      rw [scheduleFrom, discard_eq h, if_pos, h.queue.head_cons]
      rw [h.queue.count_eq]
      simp
    · have hn := hhi n (by omega) (Nat.lt_succ_self n)
      rw [scheduleFrom, discard_eq hn, if_neg, ih (by omega) fun q' h₁ h₂ => hhi q' h₁ (by omega)]
      rw [hn.queue.count_eq]
      simp

/-- **Popping a level** leaves the others alone. -/
theorem popHead_isLevel {t : Ptable} {q q' : ℕ} {p : Slot} {l l' : List Slot}
    (h : t.IsLevel q (p :: l)) (h' : t.IsLevel q' l') :
    (popHead q t).IsLevel q' (if q' = q then l else l') := by
  by_cases hq : q' = q
  · subst hq
    rw [if_pos rfl]
    refine ⟨?_, fun x hx => h.state x (List.mem_cons_of_mem _ hx),
      fun x hx => h.priority x (List.mem_cons_of_mem _ hx), (List.pairwise_cons.mp h.order).2,
      fun x hx => h.logged x (List.mem_cons_of_mem _ hx)⟩
    simp only [popHead, Function.update_self, h.queue.head_cons, Ptable.nextOf]
    exact h.queue.pop
  · rw [if_neg hq]
    refine h'.frame ?_ ?_ rfl fun x _ => ⟨rfl, rfl, rfl⟩
    · simp [popHead, Function.update_of_ne hq]
    · simp [popHead, Function.update_of_ne hq]

/-- **What a pass of `scheduler` chooses**: nothing if every level is empty, and else the front of
the highest level that is not. -/
theorem schedule_cases {t : Ptable} (h : t.Queues) :
    ((∀ q < NPROCQ, t.level q = []) ∧ schedule t = (t, none)) ∨
    ∃ q < NPROCQ, ∃ p l, t.level q = p :: l ∧ (∀ q', q < q' → q' < NPROCQ → t.level q' = []) ∧
      schedule t = (popHead q t, some p) := by
  by_cases hall : ∀ q < NPROCQ, t.level q = []
  · refine .inl ⟨hall, scheduleFrom_none fun q hq => ?_⟩
    rw [← hall q hq]
    exact h.level q hq
  · right
    -- the highest level that is not empty
    obtain ⟨q, ⟨hq, hne⟩, hmax⟩ : ∃ q, (q < NPROCQ ∧ t.level q ≠ []) ∧
        ∀ q', q < q' → q' < NPROCQ → t.level q' = [] := by
      push Not at hall
      obtain ⟨q, hq, hne⟩ := hall
      refine ⟨Nat.findGreatest (fun q => q < NPROCQ ∧ t.level q ≠ []) NPROCQ,
        Nat.findGreatest_spec (P := fun q => q < NPROCQ ∧ t.level q ≠ []) hq.le ⟨hq, hne⟩,
        fun q' h₁ h₂ => ?_⟩
      have := Nat.findGreatest_is_greatest h₁ h₂.le
      by_contra hne'
      exact this ⟨h₂, hne'⟩
    obtain ⟨p, l, hl⟩ := List.exists_cons_of_ne_nil hne
    refine ⟨q, hq, p, l, hl, hmax, scheduleFrom_some hq (hl ▸ h.level q hq) fun q' h₁ h₂ => ?_⟩
    rw [← hmax q' h₁ h₂]
    exact h.level q' h₂

/-- `t'` is `t` after the front `p` of level `q`, the highest that is not empty, was taken off. -/
structure Dequeues (t t' : Ptable) (q : ℕ) (p : Slot) : Prop where
  queues : t'.Queues
  log : t'.pushed = t.pushed
  level_lt : q < NPROCQ
  front : t.level q = p :: t'.level q
  rest : ∀ q' < NPROCQ, q' ≠ q → t'.level q' = t.level q'
  highest : ∀ q', q < q' → q' < NPROCQ → t.level q' = []

/-- The front of a level, once popped, may stop being runnable. -/
theorem dequeue {t t' : Ptable} {q : ℕ} {p : Slot} {l : List Slot} (h : t.Queues) (hq : q < NPROCQ)
    (hl : t.level q = p :: l) (hhi : ∀ q', q < q' → q' < NPROCQ → t.level q' = [])
    (hproc : ∀ x, x ≠ p → t'.proc x = t.proc x) (hpq : t'.pqueue = (popHead q t).pqueue)
    (hcount : t'.count = (popHead q t).count) (hlog : t'.pushed = t.pushed)
    (hprio : (t'.proc p).priority < NPROCQ) : Dequeues t t' q p := by
  have hp : t.IsLevel q (p :: l) := hl ▸ h.level q hq
  have hlev : ∀ q' < NPROCQ, t'.IsLevel q' (if q' = q then l else t.level q') := by
    intro q' hq'
    refine (popHead_isLevel hp (h.level q' hq')).frame (congrFun hpq q') (congrFun hcount q') hlog
      fun x hx => ?_
    have hxp : x ≠ p := by
      rintro rfl
      split_ifs at hx with hqq
      · exact (List.nodup_cons.mp hp.queue.nodup).1 hx
      · exact hqq ((h.level q' hq').priority x hx ▸ hp.priority x (by simp))
    rw [hproc x hxp]
    exact ⟨rfl, rfl, rfl⟩
  refine ⟨⟨fun q' hq' => ?_, fun x => ?_⟩, hlog, hq, ?_, fun q' hq' hne => ?_, hhi⟩
  · rw [(hlev q' hq').level_eq]
    exact hlev q' hq'
  · by_cases hx : x = p
    · rw [hx]; exact hprio
    · rw [hproc x hx]; exact h.priority x
  · rw [(hlev q hq).level_eq, if_pos rfl, hl]
  · rw [(hlev q' hq').level_eq, if_neg hne]

end OsPlayground
