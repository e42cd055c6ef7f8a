import Mathlib.Data.List.GetD
import Mathlib.Tactic.SplitIfs
import OsPlayground.Log.Model

/-!
# Transactions are crash-atomic

* `performs_other`: blocks that are not written keep their contents.
* `performs_install`: what `install_trans` leaves in the logged blocks.
* `Clean`, `Committed`: the disk before and after the header of a transaction is written.
* `clean_recoverCut`, `committed_recoverCut`: what a recovery cut at any write keeps.
* **`crash_atomic`**: a commit cut at any write, recoveries cut at any writes, and a recovery.
-/

namespace OsPlayground

namespace Log

/-! ## Writes -/

section Writes

variable {ws vs : List Write} {s : Bufs} {b : ℕ}

theorem performs_cons (w : Write) (ws : List Write) (s : Bufs) :
    performs (w :: ws) s = performs ws (w.perform s) := rfl

theorem performs_append (ws vs : List Write) (s : Bufs) :
    performs (ws ++ vs) s = performs vs (performs ws s) := List.foldl_append

theorem performs_other : ∀ {ws : List Write} {s : Bufs}, (∀ w ∈ ws, w.blockno ≠ b) →
    (performs ws s).disk b = s.disk b ∧ (performs ws s).cache b = s.cache b := by
  intro ws
  induction ws with
  | nil => exact fun _ => ⟨rfl, rfl⟩
  | cons w ws ih =>
    intro s h
    obtain ⟨hw, hws⟩ := List.forall_mem_cons.mp h
    obtain ⟨hd, hc⟩ := ih (s := w.perform s) hws
    rw [performs_cons, hd, hc]
    exact ⟨Function.update_of_ne (Ne.symm hw) _ _, Function.update_of_ne (Ne.symm hw) _ _⟩

theorem performs_snoc (ws : List Write) (w : Write) (s : Bufs) :
    (performs (ws ++ [w]) s).disk =
      Function.update (performs ws s).disk w.blockno (w.data (performs ws s).cache) := by
  rw [performs_append]
  rfl

end Writes

/-! ## The header -/

theorem putHead_zero (lh : List ℕ) (hb : Block) : putHead lh hb 0 = lh.length := rfl

theorem read_putHead {start : ℕ} {cache : Disk} {hb : Block} {lh : List ℕ}
    (h : cache start = putHead lh hb) : read_head start cache = lh := by
  unfold read_head
  refine List.ext_getElem (by simp [h, putHead_zero]) fun i _ hi => ?_
  rw [List.getElem_map, List.getElem_range, h, putHead, if_neg (Nat.succ_ne_zero i),
    if_pos (Nat.succ_le_of_lt hi), Nat.add_sub_cancel, List.getD_eq_getElem _ _ hi]

theorem read_empty {start : ℕ} {cache : Disk} (h : cache start 0 = 0) :
    read_head start cache = [] := by
  rw [read_head, h]
  rfl

/-! ## The parts of a transaction -/

section Parts

variable {start : ℕ} {lh : List ℕ} {s : Bufs}

theorem length_write_log : ∀ (lh : List ℕ) (tail : ℕ), (write_log start tail lh).length = lh.length
  | [], _ => rfl
  | _ :: lh, tail => congrArg Nat.succ (length_write_log lh (tail + 1))

theorem length_install_trans : ∀ (lh : List ℕ) (tail : ℕ),
    (install_trans start tail lh).length = lh.length
  | [], _ => rfl
  | _ :: lh, tail => congrArg Nat.succ (length_install_trans lh (tail + 1))

theorem blockno_write_log : ∀ {lh : List ℕ} {tail : ℕ}, ∀ w ∈ write_log start tail lh,
    start + tail < w.blockno ∧ w.blockno ≤ start + tail + lh.length := by
  intro lh
  induction lh with
  | nil => exact fun _ h => absurd h List.not_mem_nil
  | cons b lh ih =>
    intro tail w hw
    rw [List.length_cons]
    rcases List.mem_cons.mp hw with rfl | hw
    · exact ⟨by dsimp only; omega, by dsimp only; omega⟩
    · have := ih w hw
      omega

theorem blockno_install_trans : ∀ {lh : List ℕ} {tail : ℕ}, ∀ w ∈ install_trans start tail lh,
    w.blockno ∈ lh := by
  intro lh
  induction lh with
  | nil => exact fun _ h => absurd h List.not_mem_nil
  | cons b lh ih =>
    intro tail w hw
    rcases List.mem_cons.mp hw with rfl | hw
    · exact List.mem_cons_self
    · exact List.mem_cons_of_mem b (ih w hw)

/-- The log blocks from `tail` on hold the contents `new` of the logged blocks. -/
def Logged (start : ℕ) (new d : Disk) (tail : ℕ) (lh : List ℕ) : Prop :=
  ∀ i (h : i < lh.length), d (start + tail + 1 + i) = new lh[i]

theorem Logged.head {new d : Disk} {tail b : ℕ} (h : Logged start new d tail (b :: lh)) :
    d (start + tail + 1) = new b := h 0 (Nat.succ_pos _)

theorem Logged.tail {new d : Disk} {tail b : ℕ} (h : Logged start new d tail (b :: lh)) :
    Logged start new d (tail + 1) lh := by
  intro i hi
  have := h (i + 1) (Nat.succ_lt_succ hi)
  rwa [show start + tail + 1 + (i + 1) = start + (tail + 1) + 1 + i by omega] at this

theorem Logged.congr {new d d' : Disk} {tail : ℕ} (h : Logged start new d tail lh)
    (hd : ∀ i < lh.length, d' (start + tail + 1 + i) = d (start + tail + 1 + i)) :
    Logged start new d' tail lh := fun i hi => (hd i hi).trans (h i hi)

/-- **`write_log`** leaves the contents of the logged blocks in the log. -/
theorem performs_write_log : ∀ {lh : List ℕ} (tail : ℕ) {s : Bufs},
    (∀ b ∈ lh, b ≤ start ∨ start + tail + lh.length < b) →
    Logged start s.cache (performs (write_log start tail lh) s).disk tail lh ∧
      Logged start s.cache (performs (write_log start tail lh) s).cache tail lh := by
  intro lh
  induction lh with
  | nil =>
    exact fun _ _ _ => ⟨fun i h => absurd h (Nat.not_lt_zero i),
      fun i h => absurd h (Nat.not_lt_zero i)⟩
  | cons b lh ih =>
    intro tail s hout
    simp only [List.length_cons] at hout
    obtain ⟨hb, hlh⟩ := List.forall_mem_cons.mp hout
    rw [write_log, performs_cons]
    set w : Write := ⟨start + tail + 1, fun cache => cache b⟩ with hw
    obtain ⟨hd, hc⟩ := ih (tail + 1) (s := w.perform s)
      fun c hc => (hlh c hc).imp id fun h => by omega
    have hbelow : ∀ v ∈ write_log start (tail + 1) lh, v.blockno ≠ start + tail + 1 := by
      intro v hv
      have := (blockno_write_log v hv).1
      omega
    have hkeep := performs_other (s := w.perform s) hbelow
    have hnew : ∀ c ∈ lh, (w.perform s).cache c = s.cache c := fun c hc =>
      Function.update_of_ne (by have := hlh c hc; simp only [hw]; omega) _ _
    have hset : (w.perform s).disk (start + tail + 1) = s.cache b ∧
        (w.perform s).cache (start + tail + 1) = s.cache b :=
      ⟨Function.update_self _ _ _, Function.update_self _ _ _⟩
    constructor
    all_goals
      intro i hi
      cases i with
      | zero => first | exact hkeep.1.trans hset.1 | exact hkeep.2.trans hset.2
      | succ i =>
        have hi' : i < lh.length := Nat.lt_of_succ_lt_succ hi
        rw [show start + tail + 1 + (i + 1) = start + (tail + 1) + 1 + i by omega,
          List.getElem_cons_succ, ← hnew _ (List.getElem_mem hi')]
        first | exact hd i hi' | exact hc i hi'

/-- **`install_trans`** leaves them in the logged blocks, whatever these held. -/
theorem performs_install {new : Disk} : ∀ {lh : List ℕ} {tail : ℕ} {s : Bufs},
    Logged start new s.cache tail lh → (∀ b ∈ lh, b ≤ start ∨ start + tail + lh.length < b) →
    ∀ b ∈ lh, (performs (install_trans start tail lh) s).disk b = new b := by
  intro lh
  induction lh with
  | nil => exact fun _ _ b h => absurd h List.not_mem_nil
  | cons c lh ih =>
    intro tail s hlog hout b hb
    simp only [List.length_cons] at hout
    obtain ⟨hc, hlh⟩ := List.forall_mem_cons.mp hout
    rw [install_trans, performs_cons]
    set w : Write := ⟨c, fun cache => cache (start + tail + 1)⟩ with hw
    have hlog' : Logged start new (w.perform s).cache (tail + 1) lh := by
      refine hlog.tail.congr fun i hi => Function.update_of_ne ?_ _ _
      simp only [hw]
      omega
    by_cases hbl : b ∈ lh
    · exact ih hlog' (fun d hd => (hlh d hd).imp id fun h => by omega) b hbl
    · obtain rfl : b = c := (List.mem_cons.mp hb).resolve_right hbl
      have hkeep : ∀ v ∈ install_trans start (tail + 1) lh, v.blockno ≠ b :=
        fun v hv hvb => hbl (hvb ▸ blockno_install_trans v hv)
      rw [(performs_other hkeep).1]
      exact (Function.update_self _ _ _).trans hlog.head

end Parts

/-! ## The two states of the disk -/

section Atomic

variable {start : ℕ} {lh : List ℕ} {before new v d : Disk} {s : Bufs} {k : ℕ}

/-- Blocks outside the log area. -/
def Outside (start b : ℕ) : Prop := b < start ∨ start + LOGSIZE ≤ b

theorem LOGSIZE_pos : 0 < LOGSIZE := by decide

theorem Outside.cases {b : ℕ} (h : Outside start b) : b < start ∨ start + LOGSIZE ≤ b := h

/-- The log is empty, and the blocks outside it are those of `v`. -/
structure Clean (start : ℕ) (v d : Disk) : Prop where
  head : d start 0 = 0
  blocks : ∀ b, Outside start b → d b = v b

/-- The header and the log blocks hold the transaction; the other blocks are as before it. -/
structure Committed (start : ℕ) (lh : List ℕ) (before new d : Disk) : Prop where
  head : ∃ hb, d start = putHead lh hb
  logged : Logged start new d 0 lh
  blocks : ∀ b, Outside start b → b ∉ lh → d b = before b

/-- The blocks after the transaction. -/
def after (lh : List ℕ) (before new : Disk) : Disk := fun b => if b ∈ lh then new b else before b

/-- A transaction that fits: its blocks are outside the log, and the log has room for it. -/
structure Fits (start : ℕ) (lh : List ℕ) : Prop where
  length : lh.length ≤ LOGSIZE - 1
  outside : ∀ b ∈ lh, Outside start b

theorem Fits.bounds (h : Fits start lh) : ∀ b ∈ lh, b ≤ start ∨ start + 0 + lh.length < b := by
  intro b hb
  have hlen := h.length
  have hpos := LOGSIZE_pos
  rcases (h.outside b hb).cases with h | h
  · exact .inl (Nat.le_of_lt h)
  · exact .inr (by omega)

theorem Outside.ne_start {b : ℕ} (h : Outside start b) : b ≠ start := by
  have hpos := LOGSIZE_pos
  rcases h.cases with h | h <;> omega

theorem Committed.install (h : Committed start lh before new s.disk) (hfits : Fits start lh)
    (hk : ∀ w ∈ (install_trans start 0 lh).take k, w.blockno ∈ lh) :
    Committed start lh before new (performs ((install_trans start 0 lh).take k) s).disk := by
  have hkeep : ∀ b, b ∉ lh → (performs ((install_trans start 0 lh).take k) s).disk b = s.disk b :=
    fun b hb => (performs_other fun w hw (hwb : w.blockno = b) => hb (hwb ▸ hk w hw)).1
  have hlog : ∀ i, i ≤ lh.length → start + i ∉ lh := by
    intro i hi hmem
    have hlen := hfits.length
    have hpos := LOGSIZE_pos
    rcases (hfits.outside _ hmem).cases with hlt | hge <;> omega
  refine ⟨?_, h.logged.congr fun i hi => ?_, fun b hb hnot => (hkeep b hnot).trans (h.blocks b hb hnot)⟩
  · rw [hkeep start (by simpa using hlog 0 (Nat.zero_le _))]
    exact h.head
  · rw [show start + 0 + 1 + i = start + (i + 1) by omega]
    exact hkeep _ (hlog _ hi)

theorem performs_clear (start : ℕ) (ws : List Write) (s : Bufs) :
    (performs (ws ++ [write_head start []]) s).disk start 0 = 0 := by
  rw [performs_snoc]
  have hself : Function.update (performs ws s).disk start
      ((write_head start []).data (performs ws s).cache) start =
      putHead [] ((performs ws s).cache start) := Function.update_self ..
  exact congrFun hself 0

theorem Committed.finish (h : Committed start lh before new s.disk)
    (hc : Logged start new s.cache 0 lh) (hfits : Fits start lh) :
    Clean start (after lh before new)
      (performs (install_trans start 0 lh ++ [write_head start []]) s).disk := by
  refine ⟨performs_clear .., fun b hb => ?_⟩
  rw [performs_snoc, Function.update_of_ne (show b ≠ (write_head start []).blockno from hb.ne_start),
    after]
  split_ifs with hmem
  · exact performs_install hc hfits.bounds b hmem
  · rw [(performs_other fun w hw (hwb : w.blockno = b) =>
      hmem (hwb ▸ blockno_install_trans w hw)).1]
    exact h.blocks b hb hmem

/-! ## Recovery -/

theorem clean_recoverCut (h : Clean start v d) (k : ℕ) : Clean start v (recoverCut start k d) := by
  have hempty : recover_from_log start d = [write_head start []] := by
    rw [recover_from_log, read_empty h.head]
    rfl
  rw [recoverCut, hempty]
  cases k with
  | zero => exact h
  | succ k =>
    rw [List.take_of_length_le (by simp)]
    refine ⟨performs_clear start [] _, fun b hb => ?_⟩
    exact (Function.update_of_ne hb.ne_start _ _).trans (h.blocks b hb)

/-- **A recovery that is cut** leaves the transaction in the log, or has installed it. -/
theorem committed_recoverCut (h : Committed start lh before new d) (hfits : Fits start lh) (k : ℕ) :
    Committed start lh before new (recoverCut start k d) ∨
      Clean start (after lh before new) (recoverCut start k d) := by
  obtain ⟨hb, hhead⟩ := h.head
  rw [recoverCut, recover_from_log, read_putHead hhead]
  rcases Nat.lt_or_ge lh.length k with hk | hk
  · right
    rw [List.take_of_length_le (by simp [length_install_trans]; omega)]
    exact Committed.finish (s := Bufs.boot d) h h.logged hfits
  · left
    rw [List.take_append_of_le_length (by rwa [length_install_trans])]
    exact Committed.install (s := Bufs.boot d) h hfits fun w hw =>
      blockno_install_trans w (List.mem_of_mem_take hw)

theorem recover_eq (d : Disk) : recover start d =
    recoverCut start (recover_from_log start d).length d := by
  rw [recover, recoverCut, List.take_length]

theorem committed_recover (h : Committed start lh before new d) (hfits : Fits start lh) :
    Clean start (after lh before new) (recover start d) := by
  obtain ⟨hb, hhead⟩ := h.head
  rw [recover, recover_from_log, read_putHead hhead]
  exact Committed.finish (s := Bufs.boot d) h h.logged hfits

/-- Recoveries that are cut. -/
def recoverCuts (start : ℕ) (ks : List ℕ) (d : Disk) : Disk :=
  ks.foldl (fun d k => recoverCut start k d) d

theorem clean_recoverCuts (ks : List ℕ) : ∀ {d : Disk}, Clean start v d →
    Clean start v (recoverCuts start ks d) := by
  induction ks with
  | nil => exact id
  | cons k ks ih => exact fun h => ih (clean_recoverCut h k)

theorem committed_recoverCuts (hfits : Fits start lh) (ks : List ℕ) : ∀ {d : Disk},
    Committed start lh before new d → Committed start lh before new (recoverCuts start ks d) ∨
      Clean start (after lh before new) (recoverCuts start ks d) := by
  induction ks with
  | nil => exact .inl
  | cons k ks ih =>
    intro d h
    rcases committed_recoverCut h hfits k with h | h
    · exact ih h
    · exact .inr (clean_recoverCuts ks h)

/-! ## Commits -/

theorem commit_eq (h : 0 < lh.length) : commit start lh = write_log start 0 lh ++
    write_head start lh :: (install_trans start 0 lh ++ [write_head start []]) := if_pos h

theorem commitCut_le (hempty : s.disk start 0 = 0) (hfits : Fits start lh) (hk : k ≤ lh.length) :
    Clean start s.disk (commitCut start lh k s) := by
  have hnone : ∀ {b : ℕ}, (b = start ∨ Outside start b) → commitCut start lh k s b = s.disk b := by
    intro b hb
    refine (performs_other fun w hw hwb => ?_).1
    rcases Nat.eq_zero_or_pos lh.length with h0 | hpos
    · rw [commit, if_neg (by omega)] at hw
      simp at hw
    · rw [commit_eq hpos, List.take_append_of_le_length (by rwa [length_write_log])] at hw
      have := blockno_write_log w (List.mem_of_mem_take hw)
      have hlen := hfits.length
      have hlog := LOGSIZE_pos
      rcases hb with rfl | hb
      · omega
      · rcases hb.cases with hb | hb <;> omega
  exact ⟨by rw [hnone (.inl rfl)]; exact hempty, fun b hb => hnone (.inr hb)⟩

/-- The state once the header of the commit is written. -/
theorem committed_head (hfits : Fits start lh) {t : Bufs}
    (ht : t = performs (write_log start 0 lh ++ [write_head start lh]) s) :
    Committed start lh s.disk s.cache t.disk ∧ Logged start s.cache t.cache 0 lh := by
  have hlog := performs_write_log 0 (s := s) hfits.bounds
  have hne : ∀ i, start + 0 + 1 + i ≠ start := fun i => by omega
  have hdisk : t.disk = Function.update (performs (write_log start 0 lh) s).disk start
      (putHead lh ((performs (write_log start 0 lh) s).cache start)) := by
    rw [ht, performs_append]
    rfl
  have hcache : t.cache = Function.update (performs (write_log start 0 lh) s).cache start
      (putHead lh ((performs (write_log start 0 lh) s).cache start)) := by
    rw [ht, performs_append]
    rfl
  refine ⟨⟨⟨_, by rw [hdisk, Function.update_self]⟩, ?_, fun b hb _ => ?_⟩, ?_⟩
  · exact hlog.1.congr fun i _ => by rw [hdisk, Function.update_of_ne (hne i)]
  · rw [hdisk, Function.update_of_ne hb.ne_start]
    refine (performs_other fun w hw hwb => ?_).1
    have := blockno_write_log w hw
    have hlen := hfits.length
    have hlog := LOGSIZE_pos
    rcases hb.cases with hb | hb <;> omega
  · exact hlog.2.congr fun i _ => by rw [hcache, Function.update_of_ne (hne i)]

/-- A commit that is cut later leaves the transaction in the log, or has installed it. -/
theorem commitCut_gt (hfits : Fits start lh) (hpos : 0 < lh.length) (hk : lh.length < k) :
    Committed start lh s.disk s.cache (commitCut start lh k s) ∨
      Clean start (after lh s.disk s.cache) (commitCut start lh k s) := by
  obtain ⟨j, rfl⟩ : ∃ j, k = lh.length + 1 + j := ⟨k - (lh.length + 1), by omega⟩
  obtain ⟨hcom, hcache⟩ := committed_head (s := s) hfits rfl
  set t := performs (write_log start 0 lh ++ [write_head start lh]) s with ht
  have hcut : commitCut start lh (lh.length + 1 + j) s =
      (performs ((install_trans start 0 lh ++ [write_head start []]).take j) t).disk := by
    have hsplit : commit start lh = (write_log start 0 lh ++ [write_head start lh]) ++
        (install_trans start 0 lh ++ [write_head start []]) := by
      rw [commit_eq hpos, List.append_assoc]
      rfl
    have hlen : (write_log start 0 lh ++ [write_head start lh]).length = lh.length + 1 := by
      rw [List.length_append, length_write_log]
      rfl
    rw [commitCut, hsplit, ← hlen, List.take_length_add_append, performs_append]
  rw [hcut]
  rcases Nat.lt_or_ge lh.length j with hj | hj
  · right
    rw [List.take_of_length_le (by simp [length_install_trans]; omega)]
    exact hcom.finish hcache hfits
  · left
    rw [List.take_append_of_le_length (by rwa [length_install_trans])]
    exact hcom.install hfits fun w hw => blockno_install_trans w (List.mem_of_mem_take hw)

/-- **Transactions are crash-atomic.** After a commit that is cut at any write, recoveries that are
cut at any writes, and a complete recovery, the blocks outside the log are all as before the
transaction or all as after it, and as after it once the header was written. -/
theorem crash_atomic (start : ℕ) (lh : List ℕ) (s : Bufs) (hempty : s.disk start 0 = 0)
    (hlen : lh.length ≤ LOGSIZE - 1) (hout : ∀ b ∈ lh, Outside start b) (k : ℕ) (ks : List ℕ) :
    let final := recover start (recoverCuts start ks (commitCut start lh k s))
    ((∀ b, Outside start b → final b = s.disk b) ∨
      ∀ b, Outside start b → final b = after lh s.disk s.cache b) ∧
    (lh.length < k → ∀ b, Outside start b → final b = after lh s.disk s.cache b) := by
  have hfits : Fits start lh := ⟨hlen, hout⟩
  intro final
  have hrec : ∀ {v d : Disk}, Clean start v d → ∀ b, Outside start b → recover start d b = v b :=
    fun h => by
      rw [recover_eq]
      exact (clean_recoverCut h _).blocks
  rcases Nat.lt_or_ge lh.length k with hk | hk
  · suffices h : ∀ b, Outside start b → final b = after lh s.disk s.cache b from ⟨.inr h, fun _ => h⟩
    rcases Nat.eq_zero_or_pos lh.length with h0 | hpos
    · obtain rfl := List.eq_nil_of_length_eq_zero h0
      have hnone : commitCut start [] k s = s.disk := by simp [commitCut, commit, performs]
      have hclean : Clean start s.disk (commitCut start [] k s) :=
        ⟨by rw [hnone]; exact hempty, fun _ _ => by rw [hnone]⟩
      exact hrec (clean_recoverCuts ks hclean)
    · rcases commitCut_gt (s := s) hfits hpos hk with h | h
      · rcases committed_recoverCuts hfits ks h with h | h
        · exact (committed_recover h hfits).blocks
        · exact hrec h
      · exact hrec (clean_recoverCuts ks h)
  · exact ⟨.inl (hrec (clean_recoverCuts ks (commitCut_le hempty hfits hk))),
      fun hlt => absurd hlt (Nat.not_lt_of_le hk)⟩

/-- The bytes of two blocks in the cache. -/
def twoCached : Bufs := ⟨fun _ _ => 0, fun b _ => if b = 40 ∨ b = 50 then 7 else 0⟩

/-- A transaction of two blocks, cut in `install_trans`, with a recovery cut after one write. -/
theorem crash_atomic_two :
    recover 2 (recoverCuts 2 [1] (commitCut 2 [40, 50] 4 twoCached)) 40 =
      after [40, 50] twoCached.disk twoCached.cache 40 ∧
    recover 2 (recoverCuts 2 [1] (commitCut 2 [40, 50] 4 twoCached)) 50 =
      after [40, 50] twoCached.disk twoCached.cache 50 := by
  have h := (crash_atomic 2 [40, 50] twoCached rfl (by decide)
    (by simp [Outside, LOGSIZE, MAXOPBLOCKS]) 4 [1]).2 (by decide)
  exact ⟨h 40 (by simp [Outside, LOGSIZE, MAXOPBLOCKS]), h 50 (by simp [Outside, LOGSIZE, MAXOPBLOCKS])⟩

end Atomic

end Log

end OsPlayground
