import Mathlib.Algebra.BigOperators.Ring.Finset
import Mathlib.Algebra.Order.BigOperators.Group.Finset
import Mathlib.Data.Finset.Card
import Mathlib.Data.List.Dedup
import OsPlayground.Lib.Run
import OsPlayground.Lib.Sums
import OsPlayground.Log.Model

/-!
# Log space

* `Reserved`: what the operations in progress may still log fits in the `LOGSIZE` entries of the
  header; `reserved_step`: every step keeps it.
* `Roomy`: what the log promises. It has `nlog - 1` data blocks, one fewer than there are entries.
* **`roomy_iff`**: the runs in which the promise holds.
-/

namespace OsPlayground

open Lib

namespace Log

namespace OpPc

/-- In an operation. -/
def active : OpPc → Bool
  | .inside | .logging _ => true
  | .outside | .commit | .committed => false

/-- In `end_op` with `log.committing` set. -/
def commits : OpPc → Bool
  | .commit | .committed => true
  | .outside | .inside | .logging _ => false

/-- Its share of `log.outstanding`. -/
def share (pc : OpPc) (_ : List ℕ) : ℕ := if pc.active then 1 else 0

/-- How many more blocks it may log. -/
def rest (pc : OpPc) (l : List ℕ) : ℕ := if pc.active then MAXOPBLOCKS - l.length else 0

end OpPc

variable {n : ℕ} {s s' : LogSys n} {e : LogEvent n}

/-- The sum of `f` over the processes. -/
def LogSys.total (s : LogSys n) (f : OpPc → List ℕ → ℕ) : ℕ := ∑ p, f (s.pc p) (s.logged p)

theorem total_set (f : OpPc → List ℕ → ℕ) (p : Fin n) {pc : OpPc} {l : List ℕ}
    (hpc : s'.pc = Function.update s.pc p pc) (hl : s'.logged = Function.update s.logged p l) :
    s'.total f + f (s.pc p) (s.logged p) = s.total f + f pc l := by
  have h := sum_change (Finset.mem_univ p) (f := fun q => f (s.pc q) (s.logged q))
    (g := fun q => f (s'.pc q) (s'.logged q)) fun q _ hq => by
      rw [hpc, hl, Function.update_of_ne hq, Function.update_of_ne hq]
  rw [hpc, hl, Function.update_self, Function.update_self] at h
  rwa [← hpc, ← hl] at h

/-! ## One more block -/

theorem absorb_eq (b : ℕ) (lh : List ℕ) : absorb b lh = if b ∈ lh then lh else lh ++ [b] := by
  unfold absorb
  by_cases h : b ∈ lh
  · have hi := List.idxOf_lt_length_iff.mpr h
    rw [if_neg hi.ne, if_pos h]
    refine List.ext_getElem (by simp) fun j hj _ => ?_
    rw [List.getElem_set]
    split_ifs with hij
    · subst hij
      exact (List.getElem_idxOf hi).symm
    · rfl
  · rw [if_pos (List.idxOf_eq_length h), if_neg h]

theorem mem_absorb {a b : ℕ} {lh : List ℕ} : a ∈ absorb b lh ↔ a ∈ lh ∨ a = b := by
  rw [absorb_eq]
  split_ifs with h
  · exact ⟨.inl, fun h' => h'.elim id fun h' => h' ▸ h⟩
  · simp

theorem nodup_absorb {b : ℕ} {lh : List ℕ} (h : lh.Nodup) : (absorb b lh).Nodup := by
  rw [absorb_eq]
  split_ifs with hb
  · exact h
  · exact List.nodup_append.mpr ⟨h, List.nodup_singleton b, by
      intro a ha c hc
      obtain rfl := List.mem_singleton.mp hc
      rintro rfl
      exact hb ha⟩

theorem mem_note {a b : ℕ} {l : List ℕ} : a ∈ note b l ↔ a ∈ l ∨ a = b := by
  unfold note
  split_ifs with h
  · exact ⟨.inl, fun h' => h'.elim id fun h' => h' ▸ h⟩
  · rw [List.mem_cons, or_comm]

theorem length_absorb {b : ℕ} {lh l : List ℕ} (hl : ∀ a ∈ l, a ∈ lh)
    (hn : (note b l).length ≤ MAXOPBLOCKS) :
    (absorb b lh).length + (MAXOPBLOCKS - (note b l).length) ≤
      lh.length + (MAXOPBLOCKS - l.length) := by
  rw [absorb_eq]
  unfold note at hn ⊢
  by_cases hb : b ∈ lh
  · rw [if_pos hb]
    split_ifs
    · exact le_rfl
    · rw [List.length_cons]
      omega
  · have hbl : b ∉ l := fun h => hb (hl b h)
    rw [if_neg hb]
    rw [if_neg hbl] at hn ⊢
    simp only [List.length_append, List.length_cons, List.length_nil] at hn ⊢
    omega

/-! ## The invariant -/

/-- What the operations in progress may still log fits in the header. -/
structure Reserved (s : LogSys n) : Prop where
  size : s.size = LOGSIZE
  outstanding : s.outstanding = s.total OpPc.share
  room : s.lh.length + s.total OpPc.rest ≤ LOGSIZE
  logged : ∀ p, (s.pc p).active = true → ∀ b ∈ s.logged p, b ∈ s.lh
  pending : ∀ p b, s.pc p = .logging b → (note b (s.logged p)).length ≤ MAXOPBLOCKS
  nodup : s.lh.Nodup
  calls : ∀ b, b ∈ s.lh ↔ b ∈ s.calls
  committing : s.committing = true ↔ ∃ p, (s.pc p).commits = true
  unique : ∀ p q, (s.pc p).commits = true → (s.pc q).commits = true → q = p
  alone : s.committing = true → s.outstanding = 0
  panicked : s.panicked = none ∨ s.panicked = some "too big a transaction"

theorem logStart_reserved (n : ℕ) : Reserved (logStart n) where
  size := rfl
  outstanding := by simp [logStart, LogSys.total, OpPc.share, OpPc.active]
  room := by simp [logStart, LogSys.total, OpPc.rest, OpPc.active]
  logged p h := by cases h
  pending p b h := by cases h
  nodup := List.nodup_nil
  calls _ := Iff.rfl
  committing := by simp [logStart, OpPc.commits]
  unique p q h := by cases h
  alone h := by cases h
  panicked := .inl rfl

namespace Reserved

variable {p : Fin n}

theorem outstanding_pos (h : Reserved s) (hp : (s.pc p).active = true) : 0 < s.outstanding := by
  rw [h.outstanding]
  refine lt_of_lt_of_le (show 0 < (s.pc p).share (s.logged p) by simp [OpPc.share, hp]) ?_
  exact Finset.single_le_sum (f := fun q => (s.pc q).share (s.logged q)) (fun _ _ => Nat.zero_le _)
    (Finset.mem_univ p)

theorem not_committing (h : Reserved s) (hp : (s.pc p).active = true) : s.committing = false := by
  by_contra hc
  have := h.alone (by simpa using hc)
  have := h.outstanding_pos hp
  omega

theorem not_active (h : Reserved s) (h0 : s.outstanding = 0) (q : Fin n) :
    (s.pc q).active = false := by
  by_contra hq
  have := h.outstanding_pos (by simpa using hq : (s.pc q).active = true)
  omega

theorem length_eq (h : Reserved s) : s.lh.length = s.calls.dedup.length := by
  rw [← List.toFinset_card_of_nodup h.nodup, ← List.card_toFinset]
  congr 1
  ext b
  simp [h.calls b]

theorem panic (h : Reserved s) : Reserved (s.panic "too big a transaction") :=
  ⟨h.size, h.outstanding, h.room, h.logged, h.pending, h.nodup, h.calls, h.committing, h.unique,
    h.alone, .inr rfl⟩

theorem rest_le (h : Reserved s) : s.total OpPc.rest ≤ s.outstanding * MAXOPBLOCKS := by
  rw [h.outstanding, LogSys.total, LogSys.total, Finset.sum_mul]
  refine Finset.sum_le_sum fun q _ => ?_
  unfold OpPc.rest OpPc.share
  split_ifs
  · rw [Nat.one_mul]
    exact Nat.sub_le _ _
  · exact Nat.zero_le _

/-- What the log may look like after `p` went to `v`, with the blocks `l` logged by it. -/
structure Moved (s s' : LogSys n) (p : Fin n) (v : OpPc) (l : List ℕ) : Prop where
  size : s'.size = s.size
  pc : s'.pc = Function.update s.pc p v
  logged : s'.logged = Function.update s.logged p l
  outstanding : s'.outstanding + (s.pc p).share (s.logged p) = s.outstanding + v.share l
  room : s'.lh.length + s.total OpPc.rest + v.rest l ≤ LOGSIZE + (s.pc p).rest (s.logged p)
  others : ∀ q, q ≠ p → (s.pc q).active = true → ∀ b ∈ s.lh, b ∈ s'.lh
  own : v.active = true → ∀ b ∈ l, b ∈ s'.lh
  pending : ∀ b, v = .logging b → (note b l).length ≤ MAXOPBLOCKS
  nodup : s'.lh.Nodup
  calls : ∀ b, b ∈ s'.lh ↔ b ∈ s'.calls
  committing : s'.committing = true ↔ v.commits = true ∨ ∃ q, q ≠ p ∧ (s.pc q).commits = true
  unique : v.commits = true → ∀ q, (s.pc q).commits = true → q = p
  alone : s'.committing = true → s'.outstanding = 0
  panicked : s'.panicked = s.panicked

theorem moved (h : Reserved s) {v : OpPc} {l : List ℕ} (m : Moved s s' p v l) : Reserved s' where
  size := m.size.trans h.size
  outstanding := by
    have htot := total_set OpPc.share p m.pc m.logged
    have := m.outstanding
    have := h.outstanding
    omega
  room := by
    have htot := total_set OpPc.rest p m.pc m.logged
    have := m.room
    omega
  logged q hq := by
    rw [m.pc] at hq
    rw [m.logged]
    by_cases hqp : q = p
    · subst hqp
      rw [Function.update_self] at hq ⊢
      exact m.own hq
    · rw [Function.update_of_ne hqp] at hq ⊢
      exact fun b hb => m.others q hqp hq b (h.logged q hq b hb)
  pending q b hq := by
    rw [m.pc] at hq
    rw [m.logged]
    by_cases hqp : q = p
    · subst hqp
      rw [Function.update_self] at hq ⊢
      exact m.pending b hq
    · rw [Function.update_of_ne hqp] at hq ⊢
      exact h.pending q b hq
  nodup := m.nodup
  calls := m.calls
  committing := by
    rw [m.committing, m.pc]
    refine ⟨fun h => ?_, fun ⟨q, hq⟩ => ?_⟩
    · rcases h with hv | ⟨q, hqp, hq⟩
      · exact ⟨p, by rwa [Function.update_self]⟩
      · exact ⟨q, by rwa [Function.update_of_ne hqp]⟩
    · by_cases hqp : q = p
      · subst hqp
        exact .inl (by rwa [Function.update_self] at hq)
      · exact .inr ⟨q, hqp, by rwa [Function.update_of_ne hqp] at hq⟩
  unique q r hq hr := by
    rw [m.pc] at hq hr
    by_cases hqp : q = p
    · subst hqp
      rw [Function.update_self] at hq
      by_cases hrq : r = q
      · exact hrq
      · exact m.unique hq r (by rwa [Function.update_of_ne hrq] at hr)
    · rw [Function.update_of_ne hqp] at hq
      by_cases hrp : r = p
      · subst hrp
        rw [Function.update_self] at hr
        exact (m.unique hr q hq).symm
      · rw [Function.update_of_ne hrp] at hr
        exact h.unique q r hq hr
  alone := m.alone
  panicked := m.panicked ▸ h.panicked

theorem not_commits (h : Reserved s) (hc : s.committing = false) (q : Fin n) :
    (s.pc q).commits = false := by
  by_contra hq
  have := h.committing.mpr ⟨q, by simpa using hq⟩
  rw [hc] at this
  cases this

theorem idle (h : Reserved s) (hc : s.committing = false) {v : OpPc} (hv : v.commits = false) :
    s.committing = true ↔ v.commits = true ∨ ∃ q, q ≠ p ∧ (s.pc q).commits = true := by
  simp [hc, hv, h.not_commits hc]

/-! ## The steps -/

theorem begin_op (h : Reserved s) (hp : s.pc p = .outside) : Reserved (Log.begin_op p s) := by
  unfold Log.begin_op
  split_ifs with hc hroom
  · exact h
  · exact h
  · have hc : s.committing = false := by simpa using hc
    refine h.moved (p := p) (v := .inside) (l := []) ⟨rfl, rfl, rfl, ?_, ?_, fun _ _ _ _ hb => hb,
      fun _ b hb => absurd hb List.not_mem_nil, fun b hb => (by cases hb), h.nodup, h.calls,
      h.idle hc rfl, fun h => (by cases h), fun h => absurd h (by simp [LogSys.goto, hc]), rfl⟩
    · simp [hp, OpPc.share, OpPc.active, LogSys.goto]
    · have := h.rest_le
      have hmul : (s.outstanding + 1) * MAXOPBLOCKS = s.outstanding * MAXOPBLOCKS + MAXOPBLOCKS :=
        Nat.succ_mul _ _
      simp only [hp, OpPc.rest, OpPc.active, LogSys.goto, List.length_nil, if_true, Bool.false_eq_true,
        if_false, Nat.sub_zero]
      omega

theorem log_write (h : Reserved s) (hp : s.pc p = .inside) {b : ℕ}
    (hb : (note b (s.logged p)).length ≤ MAXOPBLOCKS) : Reserved (Log.log_write p b s) := by
  have hact : (s.pc p).active = true := by rw [hp]; rfl
  have hc := h.not_committing hact
  have hpos := h.outstanding_pos hact
  unfold Log.log_write
  rw [if_neg (show ¬ s.outstanding < 1 by omega)]
  split_ifs
  · exact h.panic
  · refine h.moved (p := p) (v := .logging b) (l := s.logged p) ⟨rfl, rfl,
      (Function.update_eq_self p s.logged).symm, ?_, ?_, fun _ _ _ _ hb => hb,
      fun _ => h.logged p hact, fun c hc => (by cases hc; exact hb), h.nodup, h.calls,
      h.idle hc rfl, fun h => (by cases h), fun h => absurd h (by simp [LogSys.goto, hc]), rfl⟩
    · simp [hp, OpPc.share, OpPc.active, LogSys.goto]
    · have := h.room
      simp only [hp, OpPc.rest, OpPc.active, LogSys.goto]
      omega

theorem append (h : Reserved s) {b : ℕ} (hp : s.pc p = .logging b) :
    Reserved (Log.append p b s) := by
  have hact : (s.pc p).active = true := by rw [hp]; rfl
  have hc := h.not_committing hact
  refine h.moved (p := p) (v := .inside) (l := note b (s.logged p)) ⟨rfl, rfl, rfl, ?_, ?_,
    fun _ _ _ _ hb => mem_absorb.mpr (.inl hb), fun _ a ha => ?_, fun c hc => (by cases hc),
    nodup_absorb h.nodup, fun a => ?_, h.idle hc rfl, fun h => (by cases h),
    fun h => absurd h (by simp [Log.append, LogSys.goto, hc]),
    rfl⟩
  · simp [hp, OpPc.share, OpPc.active, Log.append, LogSys.goto]
  · have hlen := length_absorb (h.logged p hact) (h.pending p b hp)
    have := h.room
    simp only [hp, OpPc.rest, OpPc.active, Log.append, LogSys.goto, if_true]
    omega
  · exact mem_absorb.mpr ((mem_note.mp ha).imp_left (h.logged p hact a))
  · change a ∈ absorb b s.lh ↔ a ∈ s.calls ++ [b]
    rw [mem_absorb, h.calls, List.mem_append, List.mem_singleton]

theorem end_op (h : Reserved s) (hp : s.pc p = .inside) : Reserved (Log.end_op p s) := by
  have hact : (s.pc p).active = true := by rw [hp]; rfl
  have hc := h.not_committing hact
  have hpos := h.outstanding_pos hact
  have hroom := h.room
  unfold Log.end_op
  dsimp only
  rw [if_neg (by simp [hc])]
  split_ifs with h0
  · refine h.moved (p := p) (v := .commit) (l := s.logged p) ⟨rfl, rfl,
      (Function.update_eq_self p s.logged).symm, ?_, ?_, fun _ _ _ _ hb => hb,
      fun h => (by cases h), fun b hb => (by cases hb), h.nodup, h.calls, ?_,
      fun _ q hq => absurd hq (by simp [h.not_commits hc]), fun _ => h0, rfl⟩
    · simp only [hp, OpPc.share, OpPc.active, LogSys.goto, if_true, Bool.false_eq_true, if_false]
      omega
    · simp only [hp, OpPc.rest, OpPc.active, LogSys.goto, Bool.false_eq_true, if_false]
      omega
    · simp [LogSys.goto, OpPc.commits]
  · refine h.moved (p := p) (v := .outside) (l := s.logged p) ⟨rfl, rfl,
      (Function.update_eq_self p s.logged).symm, ?_, ?_, fun _ _ _ _ hb => hb,
      fun h => (by cases h), fun b hb => (by cases hb), h.nodup, h.calls,
      h.idle hc rfl, fun h => (by cases h), fun h => absurd h (by simp [LogSys.goto, hc]), rfl⟩
    · simp only [hp, OpPc.share, OpPc.active, LogSys.goto, if_true, Bool.false_eq_true, if_false]
      omega
    · simp only [hp, OpPc.rest, OpPc.active, LogSys.goto, Bool.false_eq_true, if_false]
      omega

/-- Who commits is alone. -/
theorem commit (h : Reserved s) (hp : s.pc p = .commit) : Reserved (committed p s) := by
  have hc : s.committing = true := h.committing.mpr ⟨p, by rw [hp]; rfl⟩
  have hnone := h.not_active (h.alone hc)
  have hnil : (if 0 < s.lh.length then [] else s.lh) = [] := by
    split_ifs with hlen
    · rfl
    · exact List.eq_nil_of_length_eq_zero (by omega)
  have hroom := h.room
  refine h.moved (p := p) (v := .committed) (l := s.logged p) ⟨rfl, rfl,
    (Function.update_eq_self p s.logged).symm, ?_, ?_, fun q _ hq => ?_, fun h => (by cases h),
    fun b hb => (by cases hb), ?_, ?_, ?_, fun _ q hq => h.unique p q (by rw [hp]; rfl) hq,
    h.alone, rfl⟩
  · simp [hp, OpPc.share, OpPc.active, committed, LogSys.goto]
  · simp only [hp, OpPc.rest, OpPc.active, committed, LogSys.goto, hnil, List.length_nil,
      Bool.false_eq_true, if_false]
    omega
  · rw [hnone q] at hq
    cases hq
  · simp [committed, LogSys.goto, hnil]
  · simp [committed, LogSys.goto, hnil]
  · simp [committed, LogSys.goto, hc, OpPc.commits]

theorem finish (h : Reserved s) (hp : s.pc p = .committed) : Reserved (Log.finish p s) := by
  have hroom := h.room
  refine h.moved (p := p) (v := .outside) (l := s.logged p) ⟨rfl, rfl,
    (Function.update_eq_self p s.logged).symm, ?_, ?_, fun _ _ _ _ hb => hb, fun h => (by cases h),
    fun b hb => (by cases hb), h.nodup, h.calls, ?_, fun h => (by cases h), fun h => (by cases h), rfl⟩
  · simp [hp, OpPc.share, OpPc.active, Log.finish, LogSys.goto]
  · simp only [hp, OpPc.rest, OpPc.active, Log.finish, LogSys.goto, Bool.false_eq_true, if_false]
    omega
  · simp only [Log.finish, LogSys.goto, OpPc.commits, Bool.false_eq_true, false_or, false_iff,
      not_exists, not_and]
    exact fun q hq hqc => hq (h.unique p q (by rw [hp]; rfl) hqc)

end Reserved

/-- What an event does, and where its process is. -/
theorem logMove_cases (hs : logMove e s = some s') :
    (∃ p, e = .begin_op p ∧ s.pc p = .outside ∧ s' = begin_op p s) ∨
    (∃ p b, e = .log_write p b ∧ s.pc p = .inside ∧
      (note b (s.logged p)).length ≤ MAXOPBLOCKS ∧ s' = log_write p b s) ∨
    (∃ p b, e = .append p ∧ s.pc p = .logging b ∧ s' = append p b s) ∨
    (∃ p, e = .end_op p ∧ s.pc p = .inside ∧ s' = end_op p s) ∨
    (∃ p, e = .commit p ∧ s.pc p = .commit ∧ s' = committed p s) ∨
    ∃ p, e = .finish p ∧ s.pc p = .committed ∧ s' = finish p s := by
  cases e with
  | begin_op p =>
    obtain ⟨hp, h⟩ := Option.ite_none_right_eq_some.mp hs
    exact .inl ⟨p, rfl, hp, (Option.some.inj h).symm⟩
  | log_write p b =>
    obtain ⟨hp, h⟩ := Option.ite_none_right_eq_some.mp hs
    exact .inr (.inl ⟨p, b, rfl, hp.1, hp.2, (Option.some.inj h).symm⟩)
  | append p =>
    unfold logMove at hs
    dsimp only at hs
    split at hs
    · exact .inr (.inr (.inl ⟨p, _, rfl, ‹_›, (Option.some.inj hs).symm⟩))
    · cases hs
  | end_op p =>
    obtain ⟨hp, h⟩ := Option.ite_none_right_eq_some.mp hs
    exact .inr (.inr (.inr (.inl ⟨p, rfl, hp, (Option.some.inj h).symm⟩)))
  | commit p =>
    obtain ⟨hp, h⟩ := Option.ite_none_right_eq_some.mp hs
    exact .inr (.inr (.inr (.inr (.inl ⟨p, rfl, hp, (Option.some.inj h).symm⟩))))
  | finish p =>
    obtain ⟨hp, h⟩ := Option.ite_none_right_eq_some.mp hs
    exact .inr (.inr (.inr (.inr (.inr ⟨p, rfl, hp, (Option.some.inj h).symm⟩))))

theorem logStep_eq_some : logStep e s = some s' ↔ s.panicked = none ∧ logMove e s = some s' := by
  unfold logStep
  cases s.panicked <;> simp

/-- **Every step keeps the reservation.** -/
theorem reserved_step (h : Reserved s) (hs : logStep e s = some s') : Reserved s' := by
  obtain ⟨p, -, hp, rfl⟩ | ⟨p, b, -, hp, hb, rfl⟩ | ⟨p, b, -, hp, rfl⟩ | ⟨p, -, hp, rfl⟩ |
    ⟨p, -, hp, rfl⟩ | ⟨p, -, hp, rfl⟩ := logMove_cases (logStep_eq_some.mp hs).2
  · exact h.begin_op hp
  · exact h.log_write hp hb
  · exact h.append hp
  · exact h.end_op hp
  · exact h.commit hp
  · exact h.finish hp

/-! ## What the log promises -/

/-- No `log_write` has panicked, the log holds no more than its data blocks, no block is in it
twice, and nobody commits while an operation is outstanding. -/
structure Roomy (s : LogSys n) : Prop where
  panicked : s.panicked = none
  data : s.lh.length ≤ s.size - 1
  nodup : s.lh.Nodup
  alone : ∀ p, (s.pc p).commits = true → s.outstanding = 0

/-- The number of distinct blocks logged since the last commit. -/
def LogSys.distinct (s : LogSys n) : ℕ := s.calls.dedup.length

/-- The condition on a step: `log_write` is called while fewer distinct blocks have been logged
than there are data blocks, and still are when it adds one. -/
def InRoom (s : LogSys n) (e : LogEvent n) (_ : LogSys n) : Prop :=
  match e with
  | .log_write _ _ => s.distinct < s.size - 1
  | .append p => ∀ b, s.pc p = .logging b → b ∈ s.calls ∨ s.distinct < s.size - 1
  | _ => True

theorem Reserved.roomy (h : Reserved s) (hp : s.panicked = none) (hd : s.lh.length ≤ s.size - 1) :
    Roomy s := ⟨hp, hd, h.nodup, fun p hc => h.alone (h.committing.mpr ⟨p, hc⟩)⟩

theorem log_write_panicked (h : Reserved s) (p : Fin n) (b : ℕ) (hp : s.pc p = .inside)
    (hn : s.panicked = none) : (log_write p b s).panicked = none ↔ s.distinct < s.size - 1 := by
  have hpos := h.outstanding_pos (p := p) (by rw [hp]; rfl)
  have hsize := h.size
  unfold log_write LogSys.distinct
  rw [← h.length_eq, if_neg (show ¬ s.outstanding < 1 by omega)]
  split_ifs with hfull
  · simp only [LogSys.panic, reduceCtorEq, false_iff]
    omega
  · exact iff_of_true hn (by omega)

theorem append_length (h : Reserved s) (p : Fin n) (b : ℕ) (hd : s.lh.length ≤ s.size - 1) :
    (append p b s).lh.length ≤ s.size - 1 ↔ b ∈ s.calls ∨ s.distinct < s.size - 1 := by
  change (absorb b s.lh).length ≤ _ ↔ _
  rw [LogSys.distinct, ← h.length_eq, ← h.calls, absorb_eq]
  split_ifs with hb
  · exact iff_of_true hd (.inl hb)
  · rw [List.length_append, List.length_singleton]
    exact ⟨fun h => .inr h, fun h => h.resolve_left hb⟩

/-- **A step keeps the promise** if and only if it meets the condition. -/
theorem roomy_step (h : Reserved s) (hr : Roomy s) (hs : logStep e s = some s') :
    Roomy s' ↔ InRoom s e s' := by
  have hkeep : ∀ t : LogSys n, Reserved t → t.panicked = none → t.lh = s.lh → t.size = s.size →
      Roomy t := fun t ht hp hlh hsize => ht.roomy hp (by rw [hlh, hsize]; exact hr.data)
  have hres := reserved_step h hs
  obtain ⟨p, rfl, hp, rfl⟩ | ⟨p, b, rfl, hp, hb, rfl⟩ | ⟨p, b, rfl, hp, rfl⟩ | ⟨p, rfl, hp, rfl⟩ |
    ⟨p, rfl, hp, rfl⟩ | ⟨p, rfl, hp, rfl⟩ := logMove_cases (logStep_eq_some.mp hs).2
  · refine iff_of_true ?_ trivial
    unfold begin_op at hres ⊢
    split_ifs at hres ⊢
    · exact hr
    · exact hr
    · exact hkeep _ hres hr.panicked rfl rfl
  · refine Iff.trans ⟨fun h => h.panicked, fun hn => ?_⟩
      (log_write_panicked h p b hp hr.panicked)
    refine hkeep _ hres hn ?_ ?_
    all_goals
      unfold log_write
      split_ifs <;> rfl
  · have hiff := append_length h p b hr.data
    refine ⟨fun h c hc => ?_, fun hroom => ?_⟩
    · obtain rfl : b = c := by simpa [hp] using hc
      exact hiff.mp h.data
    · exact hres.roomy hr.panicked (hiff.mpr (hroom b hp))
  · refine iff_of_true ?_ trivial
    have hc := h.not_committing (p := p) (by rw [hp]; rfl)
    unfold end_op at hres ⊢
    simp only [hc, Bool.false_eq_true, if_false] at hres ⊢
    split_ifs at hres ⊢
    · exact hkeep _ hres hr.panicked rfl rfl
    · exact hkeep _ hres hr.panicked rfl rfl
  · refine iff_of_true (hres.roomy hr.panicked ?_) trivial
    change (if 0 < s.lh.length then [] else s.lh).length ≤ s.size - 1
    have := hr.data
    split_ifs
    · exact Nat.zero_le _
    · exact this
  · exact iff_of_true (hkeep _ hres hr.panicked rfl rfl) trivial

/-- **When the reserved space is sufficient.** For any number of processes and any interleaving:
`log_write` never panics, the log never holds more than its data blocks, no block is in it twice,
and commit runs only while no operation is outstanding, throughout a run, if and only if every
`log_write` of it finds room among the data blocks. -/
theorem roomy_iff (n : ℕ) (es : List (LogEvent n)) :
    Throughout logStep Roomy es (logStart n) ↔ Along logStep InRoom es (logStart n) := by
  refine throughout_iff_along (I := Reserved) (fun _ _ _ => reserved_step) ?_ ?_
    (logStart_reserved n) ?_
  · exact fun _ _ _ h hr hroom hs => (roomy_step h hr hs).mpr hroom
  · exact fun _ _ _ h hr hs hr' => (roomy_step h hr hs).mp hr'
  · exact (logStart_reserved n).roomy rfl (Nat.zero_le _)

/-- Three operations of ten blocks each. -/
def threeOps : List (LogEvent 3) :=
  [.begin_op 0, .begin_op 1, .begin_op 2] ++
    (List.range 30).flatMap fun b => [.log_write (Fin.ofNat 3 b) b, .append (Fin.ofNat 3 b)]

/-- They are admitted together, and the last `log_write` panics. -/
theorem three_ops_panic : ∃ s, run logStep (threeOps.take 62) (logStart 3) = some s ∧
    s.panicked = some "too big a transaction" ∧
    ¬ Throughout logStep Roomy (threeOps.take 62) (logStart 3) := by
  have hrun : ((run logStep (threeOps.take 62) (logStart 3)).any fun s =>
      s.panicked = some "too big a transaction") = true := by decide +kernel
  obtain ⟨s, hs, hp⟩ := (Option.any_eq_true _ _).mp hrun
  have hp : s.panicked = some "too big a transaction" := of_decide_eq_true hp
  refine ⟨s, hs, hp, fun h => ?_⟩
  have := (h.end hs).panicked
  rw [hp] at this
  cases this

end Log

end OsPlayground
