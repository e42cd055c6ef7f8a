import OsPlayground.Log.Reserve

/-!
# Operations with a block to spare

`log_write` panics when the log is one block short of what `begin_op` reserves. Operations that log
fewer than `MAXOPBLOCKS` blocks never come to that.

* `Spared`: what is left then; `spared_step`.
* **`spare_run`**: the log keeps its promises in every run of such operations.
-/

namespace OsPlayground

namespace Log

open Lib

variable {n : ℕ} {s s' : LogSys n} {e : LogEvent n} {p : Fin n} {b k : ℕ} {l lh : List ℕ}

/-- An operation logs a block only if it then has logged fewer than `MAXOPBLOCKS`. -/
def Spare (s : LogSys n) (e : LogEvent n) (_ : LogSys n) : Prop :=
  match e with
  | .log_write p b => (note b (s.logged p)).length < MAXOPBLOCKS
  | _ => True

/-- The blocks that an operation may still log. -/
def OpPc.spare (pc : OpPc) (l : List ℕ) : ℕ := if pc.active then MAXOPBLOCKS - 1 - l.length else 0

/-- Two entries of the header are never used. -/
structure Spared (s : LogSys n) : Prop where
  reserved : Reserved s
  room : s.lh.length + s.total OpPc.spare ≤ LOGSIZE - 2
  pending : ∀ p b, s.pc p = .logging b → (note b (s.logged p)).length < MAXOPBLOCKS
  fresh : s.outstanding = 0 → s.committing = false → s.lh = []
  done : ∀ p, s.pc p = .committed → s.lh = []

theorem logStart_spared (n : ℕ) : Spared (logStart n) where
  reserved := logStart_reserved n
  room := by simp [logStart, LogSys.total, OpPc.spare, OpPc.active]
  pending p b h := by cases h
  fresh _ _ := rfl
  done p h := by cases h

theorem absorb_length (hl : ∀ a ∈ l, a ∈ lh) (hn : (note b l).length ≤ k) :
    (absorb b lh).length + (k - (note b l).length) ≤ lh.length + (k - l.length) := by
  rw [absorb_eq]
  unfold note at hn ⊢
  by_cases hb : b ∈ lh
  · rw [if_pos hb]
    split_ifs
    · exact le_rfl
    · rw [List.length_cons]
      omega
  · have hbl : b ∉ l := fun h => hb (hl b h)
    rw [if_neg hb]
    rw [if_neg hbl] at hn ⊢
    simp only [List.length_append, List.length_cons, List.length_nil] at hn ⊢
    omega

theorem Spared.spare_le (h : Reserved s) :
    s.total OpPc.spare ≤ s.outstanding * (MAXOPBLOCKS - 1) := by
  rw [h.outstanding, LogSys.total, LogSys.total, Finset.sum_mul]
  refine Finset.sum_le_sum fun q _ => ?_
  unfold OpPc.spare OpPc.share
  split_ifs
  · rw [Nat.one_mul]
    exact Nat.sub_le _ _
  · exact Nat.zero_le _

namespace Spared

/-- `p` went to `v`, with the blocks `l` logged by it. -/
theorem moved (h : Spared s) (hres : Reserved s') {v : OpPc}
    (hpc : s'.pc = Function.update s.pc p v) (hl : s'.logged = Function.update s.logged p l)
    (hroom : s'.lh.length + s.total OpPc.spare + v.spare l ≤
      LOGSIZE - 2 + (s.pc p).spare (s.logged p))
    (hpending : ∀ b, v = .logging b → (note b l).length < MAXOPBLOCKS)
    (hfresh : s'.outstanding = 0 → s'.committing = false → s'.lh = [])
    (hdone : s'.committing = true → s'.lh = [] ∨ ∀ q, s'.pc q ≠ .committed) : Spared s' where
  reserved := hres
  room := by
    have htot := total_set OpPc.spare p hpc hl
    omega
  pending q b hq := by
    rw [hpc] at hq
    rw [hl]
    by_cases hqp : q = p
    · rw [hqp, Function.update_self] at hq ⊢
      exact hpending b hq
    · rw [Function.update_of_ne hqp] at hq ⊢
      exact h.pending q b hq
  fresh := hfresh
  done q hq := by
    have hc : s'.committing = true := hres.committing.mpr ⟨q, by rw [hq]; rfl⟩
    exact (hdone hc).resolve_right fun hno => hno q hq

theorem begin_op (h : Spared s) (hp : s.pc p = .outside) : Spared (Log.begin_op p s) := by
  have hres := h.reserved.begin_op hp
  unfold Log.begin_op at hres ⊢
  split_ifs at hres ⊢ with hc hroom
  · exact h
  · exact h
  have hc : s.committing = false := by simpa using hc
  have hle := spare_le h.reserved
  refine h.moved hres (p := p) rfl rfl ?_ (fun b hb => (by cases hb)) (fun h0 => (by cases h0))
    fun hc' => absurd (hc'.symm.trans hc) (by decide)
  have h0 : (s.pc p).spare (s.logged p) = 0 := by rw [hp]; rfl
  have h9 : OpPc.spare .inside [] = 9 := rfl
  change s.lh.length + s.total OpPc.spare + OpPc.spare .inside [] ≤ 28 + _
  rw [h0, h9]
  by_cases hz : s.outstanding = 0
  · rw [hz] at hle
    rw [h.fresh hz hc, List.length_nil]
    omega
  · simp only [MAXOPBLOCKS, LOGSIZE] at hle hroom
    omega

theorem log_write (h : Spared s) (hp : s.pc p = .inside)
    (hb : (note b (s.logged p)).length < MAXOPBLOCKS) : Spared (Log.log_write p b s) := by
  have hres := h.reserved.log_write hp hb.le
  have hact : (s.pc p).active = true := by rw [hp]; rfl
  have hc := h.reserved.not_committing hact
  have hpos := h.reserved.outstanding_pos hact
  have hroom := h.room
  unfold Log.log_write at hres ⊢
  rw [if_neg (show ¬ s.outstanding < 1 by omega)] at hres ⊢
  split_ifs at hres ⊢
  · exact ⟨hres, hroom, h.pending, h.fresh, h.done⟩
  · refine h.moved hres (p := p) (l := s.logged p) rfl (Function.update_eq_self p s.logged).symm ?_
      (fun c hc => (by cases hc; exact hb)) (fun h0 => absurd h0 (Nat.ne_of_gt hpos))
      fun hc' => absurd (hc'.symm.trans hc) (by decide)
    simp only [hp, OpPc.spare, OpPc.active, LogSys.goto]
    omega

theorem append (h : Spared s) (hp : s.pc p = .logging b) : Spared (Log.append p b s) := by
  have hres := h.reserved.append hp
  have hact : (s.pc p).active = true := by rw [hp]; rfl
  have hc := h.reserved.not_committing hact
  have hpos := h.reserved.outstanding_pos hact
  have hlen := absorb_length (k := MAXOPBLOCKS - 1) (h.reserved.logged p hact)
    (Nat.le_pred_of_lt (h.pending p b hp))
  have hroom := h.room
  refine h.moved hres (p := p) rfl rfl ?_ (fun c hc => (by cases hc))
    (fun h0 => absurd h0 (Nat.ne_of_gt hpos)) fun hc' => absurd (hc'.symm.trans hc) (by decide)
  simp only [hp, OpPc.spare, OpPc.active, Log.append, LogSys.goto, if_true]
  omega

theorem end_op (h : Spared s) (hp : s.pc p = .inside) : Spared (Log.end_op p s) := by
  have hres := h.reserved.end_op hp
  have hact : (s.pc p).active = true := by rw [hp]; rfl
  have hc := h.reserved.not_committing hact
  have hroom := h.room
  have hgone : ∀ v : OpPc, v.active = false →
      s.lh.length + s.total OpPc.spare + v.spare (s.logged p) ≤
        LOGSIZE - 2 + (s.pc p).spare (s.logged p) := fun v hv => by
    simp only [OpPc.spare, hv, Bool.false_eq_true, if_false]
    omega
  unfold Log.end_op at hres ⊢
  dsimp only at hres ⊢
  rw [if_neg (by simp [hc])] at hres ⊢
  split_ifs at hres ⊢ with h0
  · refine h.moved hres (p := p) (l := s.logged p) rfl (Function.update_eq_self p s.logged).symm
      (hgone .commit rfl) (fun b hb => (by cases hb)) (fun _ hc' => (by cases hc')) fun _ =>
        .inr fun q hq => ?_
    -- nobody else commits
    have hcq := h.reserved.not_commits hc q
    by_cases hqp : q = p
    · rw [hqp] at hq
      simp [LogSys.goto] at hq
    · simp only [LogSys.goto, Function.update_of_ne hqp] at hq
      rw [hq] at hcq
      cases hcq
  · exact h.moved hres (p := p) (l := s.logged p) rfl (Function.update_eq_self p s.logged).symm
      (hgone .outside rfl) (fun b hb => (by cases hb)) (fun h0' => absurd h0' h0) fun hc' =>
        absurd (hc'.symm.trans hc) (by decide)

theorem commit (h : Spared s) (hp : s.pc p = .commit) : Spared (committed p s) := by
  have hres := h.reserved.commit hp
  have hnil : (committed p s).lh = [] := by
    unfold committed LogSys.goto
    dsimp only
    split_ifs with hlen
    · rfl
    · exact List.eq_nil_of_length_eq_zero (by omega)
  have hroom := h.room
  refine h.moved hres (p := p) (l := s.logged p) rfl (Function.update_eq_self p s.logged).symm ?_
    (fun b hb => (by cases hb)) (fun _ _ => hnil) fun _ => .inl hnil
  rw [hnil]
  simp only [hp, OpPc.spare, OpPc.active, List.length_nil, Bool.false_eq_true, if_false]
  omega

theorem finish (h : Spared s) (hp : s.pc p = .committed) : Spared (Log.finish p s) := by
  have hroom := h.room
  refine h.moved (h.reserved.finish hp) (p := p) (l := s.logged p) rfl
    (Function.update_eq_self p s.logged).symm ?_ (fun b hb => (by cases hb))
    (fun _ _ => h.done p hp) fun _ => .inl (h.done p hp)
  simp only [hp, OpPc.spare, OpPc.active, Log.finish, LogSys.goto, Bool.false_eq_true, if_false]
  omega

end Spared

theorem spared_step (h : Spared s) (he : Spare s e s') (hs : logStep e s = some s') : Spared s' := by
  obtain ⟨p, -, hp, rfl⟩ | ⟨p, b, rfl, hp, -, rfl⟩ | ⟨p, b, -, hp, rfl⟩ | ⟨p, -, hp, rfl⟩ |
    ⟨p, -, hp, rfl⟩ | ⟨p, -, hp, rfl⟩ := logMove_cases (logStep_eq_some.mp hs).2
  · exact h.begin_op hp
  · exact h.log_write hp he
  · exact h.append hp
  · exact h.end_op hp
  · exact h.commit hp
  · exact h.finish hp

theorem Spared.in_room (h : Spared s) (e : LogEvent n) (s' : LogSys n) : InRoom s e s' := by
  have hlt : s.distinct < s.size - 1 := by
    have hroom := h.room
    rw [LogSys.distinct, ← h.reserved.length_eq, h.reserved.size]
    change _ < 29
    change _ ≤ 28 at hroom
    omega
  cases e with
  | log_write p b => exact hlt
  | append p => exact fun _ _ => .inr hlt
  | begin_op p | end_op p | commit p | finish p => trivial

/-- **With a block to spare the log is large enough.** In every run, of any number of processes, in
which no operation logs as many as `MAXOPBLOCKS` blocks. -/
theorem spare_run (n : ℕ) (es : List (LogEvent n)) (h : Along logStep Spare es (logStart n)) :
    Throughout logStep Roomy es (logStart n) := by
  have hstep : ∀ (s : LogSys n) (e : LogEvent n) (s' : LogSys n), Spared s ∧ Roomy s →
      Spare s e s' → logStep e s = some s' → Spared s' ∧ Roomy s' := fun s e s' hi he hs =>
    ⟨spared_step hi.1 he hs, (roomy_step hi.1.reserved hi.2 hs).mpr (hi.1.in_room e s')⟩
  have hstart : Roomy (logStart n) := (logStart_reserved n).roomy rfl (Nat.zero_le _)
  exact (throughout_of_along hstep ⟨logStart_spared n, hstart⟩ h).mono fun _ hi => hi.2

/-- One operation of two blocks. -/
theorem spare_run_one : Throughout logStep Roomy
    [.begin_op 0, .log_write 0 40, .append 0, .log_write 0 50, .append 0, .end_op 0] (logStart 1) := by
  refine spare_run 1 _ fun s₁ h₁ => ⟨trivial, fun s₂ h₂ => ⟨?_, fun s₃ h₃ => ⟨trivial, fun s₄ h₄ => ⟨?_,
    fun s₅ _ => ⟨trivial, fun s₆ _ => ⟨trivial, trivial⟩⟩⟩⟩⟩⟩
  · obtain rfl := Option.some.inj h₁
    show (note 40 []).length < MAXOPBLOCKS
    decide
  · obtain rfl := Option.some.inj h₁
    obtain rfl := Option.some.inj h₂
    obtain rfl := Option.some.inj h₃
    show (note 50 [40]).length < MAXOPBLOCKS
    decide

end Log

end OsPlayground
