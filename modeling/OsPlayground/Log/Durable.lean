import OsPlayground.Log.Journal

/-!
# What is committed survives every crash

* `Recoverable`: a disk that a recovery repairs; `recover_cut`: cutting the recovery changes nothing.
* `commit_keeps`, `commit_done`, `commit_cache`: a commit that is cut before or after its header.
* `Phase`, `Intact`: where the writes are, and what is dirty.
* **`journal_refines`**: the system is a volume, of which a crash leaves what was kept.
* **`crash_run`**: after any run, with any crashes, a recovery gives the contents at a moment when no
  operation was in progress, and never those from before an earlier such moment.
-/

namespace OsPlayground

open Lib

namespace Log

/-! ## Disks that a recovery repairs -/

section Disks

variable {start : ℕ} {lh : List ℕ} {v d : Disk} {s : Bufs} {k b : ℕ}

/-- The log is empty, or holds a transaction. -/
def Recoverable (start : ℕ) (d : Disk) : Prop :=
  d start 0 = 0 ∨ ∃ lh before new, Fits start lh ∧ Committed start lh before new d

theorem clean_recover (h : Clean start v d) (hb : Outside start b) : recover start d b = v b := by
  rw [recover_eq]
  exact (clean_recoverCut h _).blocks b hb

theorem clean_self (h : d start 0 = 0) : Clean start d d := ⟨h, fun _ _ => rfl⟩

/-- **A recovery that is cut** can be done again. -/
theorem recover_cut (h : Recoverable start d) (k : ℕ) : Recoverable start (recoverCut start k d) ∧
    ∀ b, Outside start b → recover start (recoverCut start k d) b = recover start d b := by
  rcases h with h | ⟨lh, before, new, hfits, h⟩
  · have hcut := clean_recoverCut (clean_self h) k
    exact ⟨.inl hcut.head, fun b hb => by
      rw [clean_recover hcut hb, clean_recover (clean_self h) hb]⟩
  · have hall := committed_recover h hfits
    rcases committed_recoverCut h hfits k with hcut | hcut
    · exact ⟨.inr ⟨lh, before, new, hfits, hcut⟩, fun b hb => by
        rw [(committed_recover hcut hfits).blocks b hb, hall.blocks b hb]⟩
    · exact ⟨.inl hcut.head, fun b hb => by rw [clean_recover hcut hb, hall.blocks b hb]⟩

theorem recovered (start : ℕ) (d : Disk) :
    (performs (recover_from_log start d) (Bufs.boot d)).disk start 0 = 0 := performs_clear ..

theorem commit_keeps (hempty : s.disk start 0 = 0) (hfits : Fits start lh) (hk : k ≤ lh.length) :
    Recoverable start (commitCut start lh k s) ∧
      ∀ b, Outside start b → recover start (commitCut start lh k s) b = s.disk b := by
  have h := commitCut_le hempty hfits hk
  exact ⟨.inl h.head, fun b hb => clean_recover h hb⟩

theorem commit_done (hfits : Fits start lh) (hpos : 0 < lh.length) (hk : lh.length < k) :
    Recoverable start (commitCut start lh k s) ∧ ∀ b, Outside start b →
      recover start (commitCut start lh k s) b = after lh s.disk s.cache b := by
  rcases commitCut_gt (s := s) hfits hpos hk with h | h
  · exact ⟨.inr ⟨lh, _, _, hfits, h⟩, (committed_recover h hfits).blocks⟩
  · exact ⟨.inl h.head, fun b hb => clean_recover h hb⟩

/-! ## The cache -/

theorem install_trans_get : ∀ {lh : List ℕ} {tail : ℕ}, ∀ w ∈ install_trans start tail lh,
    ∃ i, ∃ h : i < lh.length, w = ⟨lh[i], fun cache => cache (start + tail + 1 + i)⟩ := by
  intro lh
  induction lh with
  | nil => exact fun _ h => absurd h List.not_mem_nil
  | cons b lh ih =>
    intro tail w hw
    rcases List.mem_cons.mp hw with rfl | hw
    · exact ⟨0, Nat.succ_pos _, rfl⟩
    · obtain ⟨i, hi, rfl⟩ := ih w hw
      refine ⟨i + 1, Nat.succ_lt_succ hi, ?_⟩
      rw [show start + (tail + 1) + 1 + i = start + tail + 1 + (i + 1) by omega]
      rfl

theorem install_cache {new : Disk} {ws : List Write} (hlog : Logged start new s.cache 0 lh)
    (hnew : ∀ b ∈ lh, s.cache b = new b) (hws : ∀ w ∈ ws, w ∈ install_trans start 0 lh) :
    (performs ws s).cache = s.cache := by
  induction ws generalizing s with
  | nil => rfl
  | cons w ws ih =>
    obtain ⟨hw, hws⟩ := List.forall_mem_cons.mp hws
    have hone : (w.perform s).cache = s.cache := by
      obtain ⟨i, hi, rfl⟩ := install_trans_get w hw
      refine Function.update_eq_self_iff.2 ?_
      exact (hlog i hi).trans (hnew _ (List.getElem_mem hi)).symm
    have hmore := ih (s := w.perform s) (by rwa [hone]) (by rwa [hone]) hws
    rw [performs_cons, hmore, hone]

theorem commit_split (hpos : 0 < lh.length) : commit start lh =
    (write_log start 0 lh ++ [write_head start lh]) ++
      (install_trans start 0 lh ++ [write_head start []]) := by
  rw [commit_eq hpos, List.append_assoc]
  rfl

theorem length_commit (hpos : 0 < lh.length) :
    (commit start lh).length = (lh.length + 1) + (lh.length + 1) := by
  rw [commit_split hpos, List.length_append, List.length_append, List.length_append,
    length_write_log, length_install_trans]
  rfl

theorem drop_eq_cons {ws vs : List Write} {w : Write} (h : ws.drop k = w :: vs) :
    ws[k]? = some w ∧ ws.drop (k + 1) = vs := by
  refine ⟨?_, ?_⟩
  · have hfirst : (ws.drop k)[0]? = some w := by rw [h]; rfl
    rwa [List.getElem?_drop, Nat.add_zero] at hfirst
  · rw [← List.tail_drop, h]
    rfl

theorem performs_take_succ {ws : List Write} {w : Write} (hw : ws[k]? = some w) :
    performs (ws.take (k + 1)) s = w.perform (performs (ws.take k) s) := by
  rw [List.take_add_one, hw, performs_append]
  rfl

theorem log_writes (hfits : Fits start lh) (hb : Outside start b) :
    ∀ w ∈ write_log start 0 lh ++ [write_head start lh], w.blockno ≠ b := by
  intro w hw hwb
  rcases List.mem_append.mp hw with hw | hw
  · have hrange := blockno_write_log w hw
    have hlen := hfits.length
    have hlog := LOGSIZE_pos
    rcases hb.cases with hb | hb <;> omega
  · obtain rfl := List.mem_singleton.mp hw
    exact hb.ne_start hwb.symm

/-- **A commit changes nothing in the cache**, outside the log. -/
theorem commit_cache (hfits : Fits start lh) (k : ℕ) (hb : Outside start b) :
    (performs ((commit start lh).take k) s).cache b = s.cache b := by
  rcases Nat.eq_zero_or_pos lh.length with h0 | hpos
  · rw [commit, if_neg (by omega), List.take_nil]
    rfl
  rw [commit_split hpos, List.take_append, performs_append]
  have hfirst : (performs ((write_log start 0 lh ++ [write_head start lh]).take k) s).cache b =
      s.cache b := (performs_other fun w hw => log_writes hfits hb w (List.mem_of_mem_take hw)).2
  rw [← hfirst]
  rcases Nat.lt_or_ge (write_log start 0 lh ++ [write_head start lh]).length k with hk | hk
  swap
  · rw [Nat.sub_eq_zero_of_le hk]
    rfl
  -- the header is written, and the log blocks are as in the cache
  rw [List.take_of_length_le hk.le, List.take_append, performs_append]
  obtain ⟨-, hlog⟩ := committed_head (s := s) hfits rfl
  set t := performs (write_log start 0 lh ++ [write_head start lh]) s with ht
  have hnew : ∀ c ∈ lh, t.cache c = s.cache c := fun c hc =>
    (performs_other (log_writes hfits (hfits.outside c hc))).2
  have hlast : ∀ w ∈ [write_head start []].take (k -
      (write_log start 0 lh ++ [write_head start lh]).length - (install_trans start 0 lh).length),
      w.blockno ≠ b := by
    intro w hw
    obtain rfl := List.mem_singleton.mp (List.mem_of_mem_take hw)
    exact hb.ne_start.symm
  rw [(performs_other hlast).2,
    install_cache hlog hnew fun w hw => List.mem_of_mem_take hw]

theorem exists_install : ∀ {lh : List ℕ} {tail : ℕ}, ∀ b ∈ lh,
    ∃ w ∈ install_trans start tail lh, w.blockno = b := by
  intro lh
  induction lh with
  | nil => exact fun _ h => absurd h List.not_mem_nil
  | cons c lh ih =>
    intro tail b hb
    rcases List.mem_cons.mp hb with rfl | hb
    · exact ⟨_, List.mem_cons_self, rfl⟩
    · obtain ⟨w, hw, hwb⟩ := @ih (tail + 1) b hb
      exact ⟨w, List.mem_cons_of_mem _ hw, hwb⟩

theorem exists_commit (hb : b ∈ lh) : ∃ w ∈ commit start lh, w.blockno = b := by
  obtain ⟨w, hw, hwb⟩ := exists_install b hb
  rw [commit_split (List.length_pos_of_mem hb)]
  exact ⟨w, List.mem_append_right _ (List.mem_append_left _ hw), hwb⟩

theorem commit_head (hempty : s.disk start 0 = 0) : (performs (commit start lh) s).disk start 0 = 0 := by
  rcases Nat.eq_zero_or_pos lh.length with h0 | hpos
  · rw [commit, if_neg (by omega)]
    exact hempty
  · rw [commit_split hpos, ← List.append_assoc]
    exact performs_clear ..

theorem perform_agree {w : Write} (h : b ≠ w.blockno → s.cache b = s.disk b) :
    (w.perform s).cache b = (w.perform s).disk b := by
  unfold Write.perform
  dsimp only
  by_cases hb : b = w.blockno
  · rw [hb, Function.update_self, Function.update_self]
  · rw [Function.update_of_ne hb, Function.update_of_ne hb]
    exact h hb

end Disks

/-! ## The invariant -/

variable {n : ℕ} {start : ℕ} {s s' : Journal n} {p : Fin n} {e : JournalEvent n}

/-- Where the writes are. -/
inductive Phase (start : ℕ) (s : Journal n) : Prop
  /-- In `recover_from_log`, after `k` writes. -/
  | recovering (d : Disk) (k : ℕ) (hd : Recoverable start d) (up : s.up = false)
      (sys : s.sys = logStart n)
      (bufs : s.bufs = performs ((recover_from_log start d).take k) (Bufs.boot d))
      (todo : s.todo = (recover_from_log start d).drop k)
  | idle (up : s.up = true) (todo : s.todo = []) (pc : ∀ p, s.sys.pc p ≠ .commit)
      (head : s.bufs.disk start 0 = 0) (empty : s.sys.outstanding = 0 → s.sys.lh = [])
  /-- In `commit`, after `k` writes. -/
  | committing (p : Fin n) (base : Bufs) (k : ℕ) (up : s.up = true) (pc : s.sys.pc p = .commit)
      (head : base.disk start 0 = 0) (same : ∀ b ∉ s.sys.lh, base.cache b = base.disk b)
      (bufs : s.bufs = performs ((commit start s.sys.lh).take k) base)
      (todo : s.todo = (commit start s.sys.lh).drop k)
      (pinned : ∀ b, s.dirty b = true → ∃ w ∈ s.todo, w.blockno = b)

/-- A buffer that is not `B_DIRTY`, and that no process has changed, holds what the disk holds. -/
structure Intact (start : ℕ) (s : Journal n) : Prop where
  reserved : Reserved s.sys
  fits : Fits start s.sys.lh
  logging : ∀ p b, s.sys.pc p = .logging b → Outside start b
  dirty : ∀ b, s.dirty b = true → b ∈ s.sys.lh
  agree : s.sys.panicked = none → ∀ b, s.dirty b = false → (∀ p, s.sys.pc p ≠ .logging b) →
    s.bufs.cache b = s.bufs.disk b
  phase : Phase start s

/-- The step is one of the volume. -/
def Refines (start : ℕ) (e : JournalEvent n) (s s' : Journal n) : Prop :=
  run volumeStep (shows start e s).toList (s.volume start) = some (s'.volume start)

theorem volume_eq (hup : s'.up = s.up) (hbusy : s'.sys.outstanding = s.sys.outstanding)
    (hkept : ∀ b, Outside start b → recover start s'.bufs.disk b = recover start s.bufs.disk b)
    (hcache : ∀ b, Outside start b → s.up = true → s'.bufs.cache b = s.bufs.cache b) :
    s'.volume start = s.volume start := by
  unfold Journal.volume
  rw [hup, hbusy]
  congr 1
  · funext b
    exact hkept b b.2
  · funext b
    split_ifs with h
    · exact hcache b b.2 h
    · exact hkept b b.2

theorem onLog_eq_some {f : LogEvent n} : s.onLog f = some s' ↔ s.up = true ∧
    ∃ sys, logStep f s.sys = some sys ∧ s' = { s with sys } := by
  unfold Journal.onLog
  rw [Option.ite_none_right_eq_some, Option.map_eq_some_iff]
  exact and_congr_right fun _ => exists_congr fun _ => and_congr_right fun _ => eq_comm

theorem goto_pc {q : Fin n} {v w : OpPc} {t : LogSys n} :
    (t.goto p v).pc q = w ↔ q = p ∧ v = w ∨ q ≠ p ∧ t.pc q = w := by
  unfold LogSys.goto
  dsimp only
  by_cases hq : q = p
  · rw [hq, Function.update_self]
    simp
  · rw [Function.update_of_ne hq]
    simp [hq]

theorem goto_other {q : Fin n} {v w : OpPc} {t : LogSys n} (hv : v ≠ w)
    (hq : (t.goto p v).pc q = w) : q ≠ p ∧ t.pc q = w :=
  (goto_pc.1 hq).resolve_left fun h => hv h.2

theorem log_write_cases (p : Fin n) (b : ℕ) (t : LogSys n) :
    (∃ m, log_write p b t = t.panic m) ∨ log_write p b t = t.goto p (.logging b) := by
  unfold log_write
  split_ifs
  · exact .inl ⟨_, rfl⟩
  · exact .inl ⟨_, rfl⟩
  · exact .inr rfl

namespace Intact

theorem idle (h : Intact start s) (hup : s.up = true) (hc : s.sys.committing = false) :
    s.todo = [] ∧ (∀ q, s.sys.pc q ≠ .commit) ∧ s.bufs.disk start 0 = 0 ∧
      (s.sys.outstanding = 0 → s.sys.lh = []) := by
  cases h.phase with
  | recovering d k hd up => exact absurd (hup.symm.trans up) (by decide)
  | idle up todo pc head empty => exact ⟨todo, pc, head, empty⟩
  | committing q base k up pc =>
    have hcommits := h.reserved.committing.2 ⟨q, by rw [pc]; rfl⟩
    rw [hc] at hcommits
    cases hcommits

theorem recoverable (h : Intact start s) : Recoverable start s.bufs.disk := by
  cases h.phase with
  | recovering d k hd up sys bufs =>
    rw [bufs]
    exact (recover_cut hd k).1
  | idle up todo pc head => exact .inl head
  | committing p base k up pc head same bufs =>
    rw [bufs]
    rcases Nat.lt_or_ge s.sys.lh.length k with hk | hk
    · rcases Nat.eq_zero_or_pos s.sys.lh.length with h0 | hpos
      · rw [commit, if_neg (by omega), List.take_nil]
        exact .inl head
      · exact (commit_done h.fits hpos hk).1
    · exact (commit_keeps head h.fits hk).1

theorem crash (h : Intact start s) : Intact start (reboot n start s.bufs.disk) ∧
    Refines start .crash s (reboot n start s.bufs.disk) := by
  refine ⟨⟨logStart_reserved n, ⟨Nat.zero_le _, fun _ hb => absurd hb List.not_mem_nil⟩,
    fun _ _ hp => (by cases hp), fun _ hb => (by cases hb), fun _ _ _ _ => rfl, ?_⟩, rfl⟩
  exact .recovering s.bufs.disk 0 h.recoverable rfl rfl rfl rfl

/-- The end of a recovery. -/
theorem initlog (h : Intact start s) (hup : s.up = false) (htodo : s.todo = []) :
    Intact start { s with up := true } ∧ Refines start .initlog s { s with up := true } := by
  cases h.phase with
  | idle up => exact absurd (hup.symm.trans up) (by decide)
  | committing p base k up => exact absurd (hup.symm.trans up) (by decide)
  | recovering d k hd up sys bufs todo =>
    have hk : (recover_from_log start d).length ≤ k := List.drop_eq_nil_iff.1 (todo.symm.trans htodo)
    rw [List.take_of_length_le hk] at bufs
    have hhead : s.bufs.disk start 0 = 0 := by
      rw [bufs]
      exact recovered start d
    have hagree : ∀ b, s.bufs.cache b = s.bufs.disk b := fun b => by
      refine h.agree (by rw [sys]; rfl) b ?_ fun p => by rw [sys]; exact fun hp => (by cases hp)
      refine Bool.eq_false_iff.2 fun hb => ?_
      have hmem := h.dirty b hb
      rw [sys] at hmem
      exact absurd hmem List.not_mem_nil
    refine ⟨⟨h.reserved, h.fits, h.logging, h.dirty, h.agree, ?_⟩, ?_⟩
    · exact .idle rfl htodo (fun p => by rw [sys]; exact fun hp => (by cases hp)) hhead
        fun _ => by rw [sys]; rfl
    · refine congrArg some ?_
      unfold Journal.volume
      rw [hup]
      refine congrArg (fun c => Volume.mk _ c _) (funext fun b => ?_)
      simp only [Bool.false_eq_true, if_false, if_true]
      rw [clean_recover (clean_self hhead) b.2, hagree]

theorem recycled (h : Intact start s) {b : ℕ} (hp : s.sys.panicked = none) (hb : s.dirty b = false)
    (hlog : ∀ p, s.sys.pc p ≠ .logging b) :
    { s with bufs := { s.bufs with cache := Function.update s.bufs.cache b (s.bufs.disk b) } } = s := by
  have hsame : Function.update s.bufs.cache b (s.bufs.disk b) = s.bufs.cache :=
    Function.update_eq_self_iff.2 (h.agree hp b hb hlog).symm
  rw [hsame]

/-- A write cleans its own buffer. -/
theorem dirty_of_write {w : Write} {b : ℕ} (hb : Function.update s.dirty w.blockno false b = true) :
    b ≠ w.blockno ∧ s.dirty b = true := by
  by_cases hbw : b = w.blockno
  · rw [hbw, Function.update_self] at hb
    cases hb
  · rw [Function.update_of_ne hbw] at hb
    exact ⟨hbw, hb⟩

theorem performed {w : Write} {todo : List Write} (h : Intact start s)
    (hs : { s with
      bufs := w.perform s.bufs, dirty := Function.update s.dirty w.blockno false, todo } = s')
    (hphase : Phase start s') : Intact start s' := by
  subst hs
  exact ⟨h.reserved, h.fits, h.logging, fun b hb => h.dirty b (dirty_of_write hb).2,
    fun hp b hb hlog => perform_agree fun hbw =>
      h.agree hp b ((Function.update_of_ne hbw false s.dirty).symm.trans hb) hlog, hphase⟩

/-- A write of `recover_from_log` changes nothing that a recovery would give. -/
theorem write_recovering {d : Disk} {k : ℕ} {w : Write} {todo : List Write} (h : Intact start s)
    (hd : Recoverable start d) (up : s.up = false) (sys : s.sys = logStart n)
    (bufs : s.bufs = performs ((recover_from_log start d).take k) (Bufs.boot d))
    (htail : s.todo = (recover_from_log start d).drop k) (htodo : s.todo = w :: todo)
    (hs : { s with
      bufs := w.perform s.bufs, dirty := Function.update s.dirty w.blockno false, todo } = s') :
    Intact start s' ∧ Refines start .write s s' := by
  obtain ⟨hw, hrest⟩ := drop_eq_cons (htail.symm.trans htodo)
  have hbufs : w.perform s.bufs =
      performs ((recover_from_log start d).take (k + 1)) (Bufs.boot d) := by
    rw [performs_take_succ hw, ← bufs]
  have hvol : s'.volume start = s.volume start := by
    subst hs
    refine volume_eq rfl rfl (fun b hb => ?_) fun _ _ hup => absurd (hup.symm.trans up) (by decide)
    change recover start (w.perform s.bufs).disk b = _
    rw [hbufs, bufs]
    exact ((recover_cut hd (k + 1)).2 b hb).trans ((recover_cut hd k).2 b hb).symm
  refine ⟨h.performed hs ?_, ?_⟩
  · subst hs
    exact .recovering d (k + 1) hd up sys hbufs hrest.symm
  · have hshows : shows start .write s = none := if_neg fun hc => by
      rw [up] at hc
      cases hc.1
    rw [Refines, hshows]
    exact congrArg some hvol.symm

/-- The header makes what was written permanent. -/
theorem write_header {base : Bufs} (h : Intact start s) (up : s.up = true)
    (same : ∀ b ∉ s.sys.lh, base.cache b = base.disk b)
    (bufs : s.bufs = performs ((commit start s.sys.lh).take s.sys.lh.length) base)
    (hpos : 0 < s.sys.lh.length) (hcommits : s.sys.committing = true)
    (hsys : s'.sys = s.sys) (hup : s'.up = s.up)
    (hbufs : s'.bufs = performs ((commit start s.sys.lh).take (s.sys.lh.length + 1)) base) :
    run volumeStep [.keep] (s.volume start) = some (s'.volume start) := by
  refine run_one.2 ((if_pos (h.reserved.alone hcommits)).trans (congrArg some ?_))
  unfold Journal.volume
  rw [hup, hsys, up]
  simp only [if_true]
  congr 1
  · funext b
    rw [hbufs]
    refine Eq.trans ?_ ((commit_done h.fits hpos (by omega)).2 b b.2).symm
    rw [bufs, commit_cache h.fits s.sys.lh.length b.2, after]
    split_ifs with hb
    · rfl
    · exact same b hb
  · funext b
    rw [hbufs, bufs, commit_cache h.fits _ b.2, commit_cache h.fits _ b.2]

/-- No other write of `commit` changes what a recovery would give. -/
theorem write_installs {base : Bufs} {k : ℕ} (h : Intact start s)
    (head : base.disk start 0 = 0)
    (bufs : s.bufs = performs ((commit start s.sys.lh).take k) base)
    (hpos : 0 < s.sys.lh.length) (hk : k ≠ s.sys.lh.length) (hsys : s'.sys = s.sys)
    (hup : s'.up = s.up) (hbufs : s'.bufs = performs ((commit start s.sys.lh).take (k + 1)) base) :
    s'.volume start = s.volume start := by
  refine volume_eq hup (by rw [hsys]) (fun b hb => ?_) fun b hb _ => ?_
  · rw [hbufs, bufs]
    rcases Nat.lt_or_ge s.sys.lh.length k with hlate | hearly
    · exact ((commit_done h.fits hpos (by omega)).2 b hb).trans
        ((commit_done h.fits hpos hlate).2 b hb).symm
    · exact ((commit_keeps head h.fits (by omega)).2 b hb).trans
        ((commit_keeps head h.fits hearly).2 b hb).symm
  · rw [hbufs, bufs, commit_cache h.fits _ hb, commit_cache h.fits _ hb]

theorem write_committing {base : Bufs} {k : ℕ} {w : Write} {todo : List Write}
    (h : Intact start s) (up : s.up = true) (pc : s.sys.pc p = .commit)
    (head : base.disk start 0 = 0) (same : ∀ b ∉ s.sys.lh, base.cache b = base.disk b)
    (bufs : s.bufs = performs ((commit start s.sys.lh).take k) base)
    (htail : s.todo = (commit start s.sys.lh).drop k)
    (pinned : ∀ b, s.dirty b = true → ∃ w ∈ s.todo, w.blockno = b) (htodo : s.todo = w :: todo)
    (hs : { s with
      bufs := w.perform s.bufs, dirty := Function.update s.dirty w.blockno false, todo } = s') :
    Intact start s' ∧ Refines start .write s s' := by
  obtain ⟨hw, hrest⟩ := drop_eq_cons (htail.symm.trans htodo)
  have hbufs : w.perform s.bufs = performs ((commit start s.sys.lh).take (k + 1)) base := by
    rw [performs_take_succ hw, ← bufs]
  have hpos : 0 < s.sys.lh.length := by
    by_contra h0
    rw [commit, if_neg h0] at hw
    simp at hw
  have hinstall : k ≠ s.sys.lh.length → s'.volume start = s.volume start := fun hk => by
    subst hs
    exact h.write_installs head bufs hpos hk rfl rfl hbufs
  refine ⟨h.performed hs ?_, ?_⟩
  · subst hs
    refine .committing p base (k + 1) up pc head same hbufs hrest.symm fun b hb => ?_
    obtain ⟨hbw, hb⟩ := dirty_of_write hb
    obtain ⟨v, hv, hvb⟩ := pinned b hb
    rw [htodo] at hv
    rcases List.mem_cons.1 hv with rfl | hv
    · exact absurd hvb.symm hbw
    · exact ⟨v, hv, hvb⟩
  have hlen : s.todo.length = (s.sys.lh.length + 1) + (s.sys.lh.length + 1) - k := by
    rw [htail, List.length_drop, length_commit hpos]
  have hlt : k < (s.sys.lh.length + 1) + (s.sys.lh.length + 1) := by
    have hall : (Log.commit start s.sys.lh).length = _ := length_commit hpos
    rw [← hall]
    exact (List.getElem?_eq_some_iff.1 hw).1
  have hcommits : s.sys.committing = true := h.reserved.committing.2 ⟨p, by rw [pc]; rfl⟩
  rw [Refines]
  by_cases hk : k = s.sys.lh.length
  · have hshows : shows start .write s = some .keep := if_pos ⟨up, by omega⟩
    subst hk
    rw [hshows]
    subst hs
    exact h.write_header up same bufs hpos hcommits rfl rfl hbufs
  · have hshows : shows start .write s = none := if_neg fun hc => hk (by omega)
    rw [hshows]
    exact congrArg some (hinstall hk).symm

/-- The next write. -/
theorem write (h : Intact start s) (hs : s.write = some s') :
    Intact start s' ∧ Refines start .write s s' := by
  unfold Journal.write at hs
  rcases htodo : s.todo with _ | ⟨w, todo⟩
  · rw [htodo] at hs
    cases hs
  rw [htodo] at hs
  have hs' := Option.some.inj hs
  cases h.phase with
  | idle up hnone =>
    rw [htodo] at hnone
    cases hnone
  | recovering d k hd up sys bufs htail =>
    exact h.write_recovering hd up sys bufs htail htodo hs'
  | committing p base k up pc head same bufs htail pinned =>
    exact h.write_committing up pc head same bufs htail pinned htodo hs'

/-- `begin_op`. -/
theorem begin_op (h : Intact start s) (hs : s.onLog (.begin_op p) = some s') :
    Intact start s' ∧ Refines start (.begin_op p) s s' := by
  obtain ⟨hup, sys, hstep, rfl⟩ := onLog_eq_some.1 hs
  have hres := reserved_step h.reserved hstep
  obtain ⟨hp, hsys⟩ := Option.ite_none_right_eq_some.1 (logStep_eq_some.1 hstep).2
  replace hsys := (Option.some.inj hsys).symm
  by_cases hadm : s.sys.committing = false ∧
      s.sys.lh.length + (s.sys.outstanding + 1) * MAXOPBLOCKS ≤ LOGSIZE
  · obtain ⟨htodo, hpc, hhead, -⟩ := h.idle hup hadm.1
    have hbegin : sys = { s.sys with
        outstanding := s.sys.outstanding + 1
        logged := Function.update s.sys.logged p [] }.goto p .inside := by
      rw [hsys, Log.begin_op, if_neg (by rw [hadm.1]; decide), if_neg (not_lt.2 hadm.2)]
    have hshows : shows start (.begin_op p) s = some .start := if_pos hadm
    rw [Refines, hshows, hbegin]
    rw [hbegin] at hres
    refine ⟨⟨hres, h.fits, fun q b hq => ?_, h.dirty, fun hn b hb hq => ?_, ?_⟩, rfl⟩
    · exact h.logging q b (goto_other (by simp) hq).2
    · refine h.agree hn b hb fun q hqb => hq q (goto_pc.2 (.inr ⟨fun hqp => ?_, hqb⟩))
      rw [hqp, hp] at hqb
      cases hqb
    · refine .idle hup htodo (fun q hq => ?_) hhead fun h0 => absurd h0 (Nat.succ_ne_zero _)
      exact hpc q (goto_other (by simp) hq).2
  · -- it sleeps
    have hbegin : sys = s.sys := by
      rw [hsys, Log.begin_op]
      split_ifs with hc hfull
      · rfl
      · rfl
      · exact absurd ⟨by simpa using hc, not_lt.1 hfull⟩ hadm
    have hshows : shows start (.begin_op p) s = none := if_neg hadm
    rw [Refines, hshows, hbegin]
    exact ⟨h, rfl⟩

/-- The tests of `log_write`, with the new data in the buffer. -/
theorem log_write {b : ℕ} {data : Block} (h : Intact start s) (hb : Outside start b)
    (hs : s.onLog (.log_write p b) = some s') :
    Intact start { s' with bufs := { s'.bufs with
      cache := Function.update s'.bufs.cache b data } } ∧
    Refines start (.log_write p b data) s { s' with bufs := { s'.bufs with
      cache := Function.update s'.bufs.cache b data } } := by
  obtain ⟨hup, sys, hstep, rfl⟩ := onLog_eq_some.1 hs
  have hres := reserved_step h.reserved hstep
  obtain ⟨hnone, hmove⟩ := logStep_eq_some.1 hstep
  obtain ⟨⟨hp, -⟩, hsys⟩ := Option.ite_none_right_eq_some.1 hmove
  replace hsys := (Option.some.inj hsys).symm
  have hactive : (s.sys.pc p).active = true := by rw [hp]; rfl
  have hbusy := h.reserved.outstanding_pos hactive
  obtain ⟨htodo, hpc, hhead, hempty⟩ := h.idle hup (h.reserved.not_committing hactive)
  have hshows : shows start (.log_write p b data) s = some (.write ⟨b, hb⟩ data) := dif_pos hb
  have hvol : ∀ t : LogSys n, t.outstanding = s.sys.outstanding →
      Refines start (.log_write p b data) s { s with
        sys := t, bufs := { s.bufs with cache := Function.update s.bufs.cache b data } } := by
    intro t ht
    rw [Refines, hshows]
    refine run_one.2 ((if_pos hbusy).trans (congrArg some ?_))
    unfold Journal.volume
    rw [ht, hup]
    simp only [if_true]
    congr 1
    funext c
    by_cases hc : c = ⟨b, hb⟩
    · rw [hc, Function.update_self, Function.update_self]
    · rw [Function.update_of_ne hc, Function.update_of_ne fun hcb => hc (Subtype.ext hcb)]
  rcases log_write_cases p b s.sys with ⟨m, hpanic⟩ | hgoto
  · rw [hsys, hpanic] at hres ⊢
    refine ⟨⟨hres, h.fits, h.logging, h.dirty, fun hn => ?_, .idle hup htodo hpc hhead hempty⟩,
      hvol _ rfl⟩
    cases hn
  · rw [hsys, hgoto] at hres ⊢
    refine ⟨⟨hres, h.fits, fun q c hq => ?_, h.dirty, fun hn c hc hq => ?_, ?_⟩, hvol _ rfl⟩
    · rcases goto_pc.1 hq with ⟨-, hv⟩ | ⟨-, hq⟩
      · rwa [← OpPc.logging.inj hv]
      · exact h.logging q c hq
    · -- the changed block is in use
      have hcb : c ≠ b := fun hcb => hq p (goto_pc.2 (.inl ⟨rfl, by rw [hcb]⟩))
      refine (Function.update_of_ne hcb _ _).trans (h.agree hnone c hc fun q hqc => ?_)
      refine hq q (goto_pc.2 (.inr ⟨fun hqp => ?_, hqc⟩))
      rw [hqp, hp] at hqc
      cases hqc
    · refine .idle hup htodo (fun q hq => ?_) hhead hempty
      exact hpc q (goto_other (by simp) hq).2

/-- The section of `log_write` that sets `B_DIRTY`. -/
theorem append (h : Intact start s)
    (hroom : ∀ b, s.sys.pc p = .logging b → b ∈ s.sys.lh ∨ s.sys.lh.length < LOGSIZE - 1)
    (hs : (s.pin p).onLog (.append p) = some s') :
    Intact start s' ∧ Refines start (.append p) s s' := by
  obtain ⟨hup, sys, hstep, rfl⟩ := onLog_eq_some.1 hs
  have hpin : (s.pin p).sys = s.sys ∧ (s.pin p).up = s.up ∧ (s.pin p).bufs = s.bufs ∧
      (s.pin p).todo = s.todo := by
    unfold Journal.pin
    split
    · exact ⟨rfl, rfl, rfl, rfl⟩
    · exact ⟨rfl, rfl, rfl, rfl⟩
  obtain ⟨hsame, hsup, hbufs, hstodo⟩ := hpin
  rw [hsame] at hstep
  rw [hsup] at hup
  have hres := reserved_step h.reserved hstep
  obtain ⟨hnone, hmove⟩ := logStep_eq_some.1 hstep
  obtain ⟨b, hp, hsys⟩ : ∃ b, s.sys.pc p = .logging b ∧ sys = Log.append p b s.sys := by
    unfold logMove at hmove
    dsimp only at hmove
    split at hmove
    · exact ⟨_, ‹_›, (Option.some.inj hmove).symm⟩
    · cases hmove
  have hpinned : s.pin p = { s with dirty := Function.update s.dirty b true } := by
    unfold Journal.pin
    rw [hp]
  have hactive : (s.sys.pc p).active = true := by rw [hp]; rfl
  have hbusy := h.reserved.outstanding_pos hactive
  obtain ⟨htodo, hpc, hhead, -⟩ := h.idle hup (h.reserved.not_committing hactive)
  rw [hpinned, hsys]
  rw [hsys] at hres
  refine ⟨⟨hres, ⟨?_, fun c hc => ?_⟩, fun q c hq => ?_, fun c hc => ?_, fun _ c hc hq => ?_, ?_⟩, rfl⟩
  · have hfits := h.fits.length
    change (absorb b s.sys.lh).length ≤ _
    rw [absorb_eq]
    split_ifs with hb
    · exact hfits
    · rw [List.length_append, List.length_singleton]
      exact (hroom b hp).resolve_left hb
  · rcases mem_absorb.1 hc with hc | rfl
    · exact h.fits.outside c hc
    · exact h.logging p c hp
  · exact h.logging q c (goto_other (by simp) hq).2
  · refine mem_absorb.2 ?_
    by_cases hcb : c = b
    · exact .inr hcb
    · exact .inl (h.dirty c ((Function.update_of_ne hcb _ _).symm.trans hc))
  · have hcb : c ≠ b := by
      rintro rfl
      exact absurd ((Function.update_self c true s.dirty).symm.trans hc) (by decide)
    refine h.agree hnone c ((Function.update_of_ne hcb true s.dirty).symm.trans hc) fun q hqc => ?_
    refine hq q (goto_pc.2 (.inr ⟨fun hqp => ?_, hqc⟩))
    rw [hqp, hp] at hqc
    exact hcb (OpPc.logging.inj hqc).symm
  · refine .idle hup htodo (fun q hq => ?_) hhead fun h0 => absurd h0 (Nat.pos_iff_ne_zero.1 hbusy)
    exact hpc q (goto_other (by simp) hq).2

/-- `end_op` up to `commit`. -/
theorem end_op (h : Intact start s) (hs : s.onLog (.end_op p) = some s') :
    Intact start (s'.commits start p) ∧ Refines start (.end_op p) s (s'.commits start p) := by
  obtain ⟨hup, sys, hstep, rfl⟩ := onLog_eq_some.1 hs
  have hres := reserved_step h.reserved hstep
  obtain ⟨hnone, hmove⟩ := logStep_eq_some.1 hstep
  obtain ⟨hp, hsys⟩ := Option.ite_none_right_eq_some.1 hmove
  replace hsys := (Option.some.inj hsys).symm
  have hactive : (s.sys.pc p).active = true := by rw [hp]; rfl
  have hbusy := h.reserved.outstanding_pos hactive
  have hc := h.reserved.not_committing hactive
  obtain ⟨htodo, hpc, hhead, -⟩ := h.idle hup hc
  have hother : ∀ {q : Fin n} {b : ℕ}, s.sys.pc q = .logging b → q ≠ p := by
    rintro q b hq rfl
    rw [hp] at hq
    cases hq
  by_cases hlast : s.sys.outstanding - 1 = 0
  · -- the last one commits
    have hend : sys = { s.sys with
        outstanding := s.sys.outstanding - 1, committing := true }.goto p .commit := by
      rw [hsys, Log.end_op]
      dsimp only
      rw [if_neg (by rw [hc]; decide), if_pos hlast]
    have hat : sys.pc p = .commit := by
      rw [hend]
      exact goto_pc.2 (.inl ⟨rfl, rfl⟩)
    have hlh : sys.lh = s.sys.lh := by rw [hend]; rfl
    have hfree : ∀ q b, s.sys.pc q ≠ .logging b := by
      intro q b hq
      have hidle := hres.not_active (by rw [hend]; exact hlast) q
      have hstill : sys.pc q = .logging b := by
        rw [hend]
        exact goto_pc.2 (.inr ⟨hother hq, hq⟩)
      rw [hstill] at hidle
      cases hidle
    have hnext : ({ s with sys } : Journal n).commits start p =
        { s with sys, todo := commit start s.sys.lh } := by
      rw [Journal.commits, if_pos hat, hlh]
    rw [hnext]
    refine ⟨⟨hres, by rw [hlh]; exact h.fits, fun q b hq => ?_, by rw [hlh]; exact h.dirty,
      fun _ b hb _ => h.agree hnone b hb fun q => hfree q b, ?_⟩, ?_⟩
    · rw [hend] at hq
      exact h.logging q b (goto_other (by simp) hq).2
    · refine .committing p s.bufs 0 hup hat hhead (fun b hb => ?_) rfl (by rw [hlh]; rfl)
        fun b hb => exists_commit (h.dirty b hb)
      rw [hlh] at hb
      refine h.agree hnone b (Bool.eq_false_iff.2 fun hd => hb (h.dirty b hd)) fun q => hfree q b
    · rw [Refines, hend]
      exact run_one.2 (if_pos hbusy)
  · have hend : sys = { s.sys with outstanding := s.sys.outstanding - 1 }.goto p .outside := by
      rw [hsys, Log.end_op]
      dsimp only
      rw [if_neg (by rw [hc]; decide), if_neg hlast]
    have hnext : ({ s with sys } : Journal n).commits start p = { s with sys } := by
      refine if_neg fun hat => ?_
      rw [hend] at hat
      exact (goto_other (by simp) hat).1 rfl
    rw [hnext, hend]
    rw [hend] at hres
    refine ⟨⟨hres, h.fits, fun q b hq => ?_, h.dirty, fun hn b hb hq => ?_, ?_⟩,
      run_one.2 (if_pos hbusy)⟩
    · exact h.logging q b (goto_other (by simp) hq).2
    · exact h.agree hn b hb fun q hqb => hq q (goto_pc.2 (.inr ⟨hother hqb, hqb⟩))
    · refine .idle hup htodo (fun q hq => ?_) hhead fun h0 => absurd h0 hlast
      exact hpc q (goto_other (by simp) hq).2

/-- The return of `commit`. -/
theorem commit (h : Intact start s) (htodo : s.todo = [])
    (hs : s.onLog (.commit p) = some s') : Intact start s' ∧ Refines start (.commit p) s s' := by
  obtain ⟨hup, sys, hstep, rfl⟩ := onLog_eq_some.1 hs
  have hres := reserved_step h.reserved hstep
  obtain ⟨hnone, hmove⟩ := logStep_eq_some.1 hstep
  obtain ⟨hp, hsys⟩ := Option.ite_none_right_eq_some.1 hmove
  replace hsys := (Option.some.inj hsys).symm
  have hlh : sys.lh = [] := by
    rw [hsys]
    change (if 0 < s.sys.lh.length then [] else s.sys.lh) = []
    split_ifs with hlen
    · rfl
    · exact List.eq_nil_of_length_eq_zero (Nat.eq_zero_of_not_pos hlen)
  cases h.phase with
  | recovering d k hd up => exact absurd (hup.symm.trans up) (by decide)
  | idle up todo pc => exact absurd hp (pc p)
  | committing q base k up pc head same bufs htail pinned =>
    have hclean : ∀ b, s.dirty b = false := fun b => Bool.eq_false_iff.2 fun hb => by
      obtain ⟨w, hw, -⟩ := pinned b hb
      rw [htodo] at hw
      exact absurd hw List.not_mem_nil
    have hk : (Log.commit start s.sys.lh).length ≤ k :=
      List.drop_eq_nil_iff.1 (htail.symm.trans htodo)
    rw [List.take_of_length_le hk] at bufs
    have hhead : s.bufs.disk start 0 = 0 := by
      rw [bufs]
      exact commit_head head
    refine ⟨⟨hres, ⟨by rw [hlh]; exact Nat.zero_le _, by simp [hlh]⟩, fun r b hr => ?_,
      fun b hb => absurd ((hclean b).symm.trans hb) (by decide), fun _ b hb hr => ?_,
      .idle hup htodo (fun r hr => ?_) hhead fun _ => hlh⟩, ?_⟩
    · rw [hsys] at hr
      exact h.logging r b (goto_other (by simp) hr).2
    · refine h.agree hnone b hb fun r hrb => hr r ?_
      rw [hsys]
      refine goto_pc.2 (.inr ⟨fun hrp => ?_, hrb⟩)
      rw [hrp, hp] at hrb
      cases hrb
    · rw [hsys] at hr
      obtain ⟨hne, hr⟩ := goto_other (by simp) hr
      exact hne (h.reserved.unique p r (by rw [hp]; rfl) (by rw [hr]; rfl))
    · rw [Refines, hsys]
      rfl

/-- The end of `end_op`. -/
theorem finish (h : Intact start s) (hs : s.onLog (.finish p) = some s') :
    Intact start s' ∧ Refines start (.finish p) s s' := by
  obtain ⟨hup, sys, hstep, rfl⟩ := onLog_eq_some.1 hs
  have hres := reserved_step h.reserved hstep
  obtain ⟨hnone, hmove⟩ := logStep_eq_some.1 hstep
  obtain ⟨hp, hsys⟩ := Option.ite_none_right_eq_some.1 hmove
  obtain rfl := Option.some.inj hsys
  cases h.phase with
  | recovering d k hd up => exact absurd (hup.symm.trans up) (by decide)
  | committing q base k up pc =>
    have hpq := h.reserved.unique p q (by rw [hp]; rfl) (by rw [pc]; rfl)
    rw [hpq, hp] at pc
    cases pc
  | idle up todo pc head empty =>
    refine ⟨⟨hres, h.fits, fun q b hq => ?_, h.dirty, fun _ b hb hq => ?_,
      .idle hup todo (fun q hq => ?_) head empty⟩, rfl⟩
    · exact h.logging q b (goto_other (by simp) hq).2
    · refine h.agree hnone b hb fun q hqb => hq q (goto_pc.2 (.inr ⟨fun hqp => ?_, hqb⟩))
      rw [hqp, hp] at hqb
      cases hqb
    · exact pc q (goto_other (by simp) hq).2

/-- **Every step** keeps the invariant, and is one of the volume. -/
theorem step (h : Intact start s) (hp : Proper start s e s') (hs : journalStep start e s = some s') :
    Intact start s' ∧ Refines start e s s' := by
  cases e with
  | begin_op p => exact h.begin_op hs
  | log_write p b data =>
    obtain ⟨t, ht, rfl⟩ := Option.map_eq_some_iff.1 hs
    exact h.log_write hp ht
  | append p => exact h.append hp hs
  | end_op p =>
    obtain ⟨t, ht, rfl⟩ := Option.map_eq_some_iff.1 hs
    exact h.end_op ht
  | write => exact h.write hs
  | commit p =>
    obtain ⟨htodo, hs⟩ := Option.ite_none_right_eq_some.1 hs
    exact h.commit htodo hs
  | finish p => exact h.finish hs
  | recycle b =>
    obtain ⟨⟨hn, hb, hfree⟩, hs⟩ := Option.ite_none_right_eq_some.1 hs
    obtain rfl : s = s' := (h.recycled hn hb hfree).symm.trans (Option.some.inj hs)
    exact ⟨h, rfl⟩
  | crash =>
    obtain rfl := Option.some.inj hs
    exact h.crash
  | initlog =>
    obtain ⟨⟨hup, htodo⟩, hs⟩ := Option.ite_none_right_eq_some.1 hs
    obtain rfl := Option.some.inj hs
    exact h.initlog hup htodo

end Intact

/-! ## Every run -/

variable {d : Disk} {es fs : List (JournalEvent n)} {a : Journal n}

theorem reboot_intact (hd : d start 0 = 0) : Intact start (reboot n start d) where
  reserved := logStart_reserved n
  fits := ⟨Nat.zero_le _, fun _ h => absurd h List.not_mem_nil⟩
  logging _ _ hp := by cases hp
  dirty _ hb := by cases hb
  agree _ _ _ _ := rfl
  phase := .recovering d 0 (.inl hd) rfl rfl rfl rfl

theorem reboot_volume (hd : d start 0 = 0) : (reboot n start d).volume start =
    ⟨fun b => d b, fun b => d b, 0⟩ := by
  have hkept : ∀ b, Outside start b → recover start d b = d b := fun b hb =>
    clean_recover (clean_self hd) hb
  unfold Journal.volume
  congr 1
  · funext b
    exact hkept b b.2
  · funext b
    exact hkept b b.2

/-- **The file system is a volume.** Every run, from a disk with an empty log, shows a run of the
volume: what is read is what was written last, groups of operations are kept as a whole, and a crash
leaves what was kept. -/
theorem journal_refines (hd : d start 0 = 0)
    (hp : Along (journalStep start) (Proper start) es (reboot n start d))
    (hr : run (journalStep start) es (reboot n start d) = some s) :
    run volumeStep (shown (journalStep start) (fun e s => (shows start e s).toList) es
      (reboot n start d)) ⟨fun b => d b, fun b => d b, 0⟩ = some (s.volume start) := by
  rw [← reboot_volume hd]
  exact run_shown (I := Intact start)
    (fun _ _ _ h hp hs => (h.step hp hs).1) (fun _ _ _ h hp hs => (h.step hp hs).2)
    (reboot_intact hd) hp hr

/-- No operation is in progress. -/
structure Quiet (s : Journal n) : Prop where
  outstanding : s.sys.outstanding = 0
  committing : s.sys.committing = false
  panicked : s.sys.panicked = none

theorem Intact.quiet (h : Intact start s) (hq : Quiet s) :
    (s.volume start).kept = (s.volume start).current := by
  funext b
  change recover start s.bufs.disk b = if s.up = true then _ else _
  split_ifs with hup
  · obtain ⟨-, hpc, hhead, hempty⟩ := h.idle hup hq.committing
    rw [clean_recover (clean_self hhead) b.2]
    refine (h.agree hq.panicked b (Bool.eq_false_iff.2 fun hb => ?_) fun p hp => ?_).symm
    · have hmem := h.dirty b hb
      rw [hempty hq.outstanding] at hmem
      exact absurd hmem List.not_mem_nil
    · have hidle := h.reserved.not_active hq.outstanding p
      rw [hp] at hidle
      cases hidle
  · rfl

/-- **No operation is torn and none that is done is lost.** After any run from a quiet state `a`, with
crashes anywhere, a recovery gives the contents at a moment of the run, at which no operation was in
progress. -/
theorem crash_run (hd : d start 0 = 0)
    (hp : Along (journalStep start) (Proper start) (es ++ fs) (reboot n start d))
    (ha : run (journalStep start) es (reboot n start d) = some a) (hq : Quiet a)
    (hs : run (journalStep start) fs a = some s) :
    ∃ gs hs u, fs = gs ++ hs ∧ run (journalStep start) gs a = some u ∧ u.sys.outstanding = 0 ∧
      ∀ b, Outside start b → recover start s.bufs.disk b =
        if u.up = true then u.bufs.cache b else recover start u.bufs.disk b := by
  have hinv : ∀ (s : Journal n) (e : JournalEvent n) (s' : Journal n), Intact start s →
      Proper start s e s' → journalStep start e s = some s' → Intact start s' :=
    fun _ _ _ h hp hs => (h.step hp hs).1
  have hint : Intact start a := (throughout_of_along hinv (reboot_intact hd) hp.left).end ha
  obtain ⟨gs, hs, u, hsplit, hu, hbusy, hkept⟩ := kept_moment hinv
    (fun _ _ _ h hp hs => (h.step hp hs).2) hint hq.outstanding (hint.quiet hq) (hp.right ha) hs
  exact ⟨gs, hs, u, hsplit, hu, hbusy, fun b hb => congrFun hkept ⟨b, hb⟩⟩

/-- The first start of a disk on which nothing is written, and an operation on one block. -/
def firstBoot : List (JournalEvent 1) := [.write, .initlog]

/-- One operation that logs one block, and a crash in its commit. -/
def oneOp : List (JournalEvent 1) :=
  [.begin_op 0, .log_write 0 40 fun _ => 7, .append 0, .end_op 0, .write, .write, .crash]

theorem oneOp_proper : Along (journalStep 2) (Proper 2) (firstBoot ++ oneOp)
    (reboot 1 2 fun _ _ => 0) :=
  along_cons rfl trivial <| along_cons rfl trivial <| along_cons rfl trivial <|
    along_cons rfl (show Outside 2 40 by decide) <|
    along_cons rfl (fun _ _ => .inr (show 0 < LOGSIZE - 1 by decide)) <| along_cons rfl trivial <|
    along_cons rfl trivial <| along_cons rfl trivial <| along_cons rfl trivial trivial

theorem journal_refines_one : ∃ s, run (journalStep 2) (firstBoot ++ oneOp) (reboot 1 2 fun _ _ => 0) =
      some s ∧
    run volumeStep (shown (journalStep 2) (fun e s => (shows 2 e s).toList) (firstBoot ++ oneOp)
      (reboot 1 2 fun _ _ => 0)) ⟨fun _ _ => 0, fun _ _ => 0, 0⟩ = some (s.volume 2) :=
  ⟨_, rfl, journal_refines rfl oneOp_proper rfl⟩

theorem crash_run_one : ∃ a s, run (journalStep 2) firstBoot (reboot 1 2 fun _ _ => 0) = some a ∧
    run (journalStep 2) oneOp a = some s ∧
    ∃ gs hs u, oneOp = gs ++ hs ∧ run (journalStep 2) gs a = some u ∧ u.sys.outstanding = 0 ∧
      ∀ b, Outside 2 b → recover 2 s.bufs.disk b =
        if u.up = true then u.bufs.cache b else recover 2 u.bufs.disk b :=
  ⟨_, _, rfl, rfl, crash_run rfl oneOp_proper rfl ⟨rfl, rfl, rfl⟩ rfl⟩

end Log

end OsPlayground
