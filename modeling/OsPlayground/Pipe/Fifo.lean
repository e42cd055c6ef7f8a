import Mathlib.Algebra.Order.BigOperators.Group.Finset
import OsPlayground.Lib.Sums
import OsPlayground.Pipe.Model

/-!
# Pipes are lossless first-in first-out channels

* `Pipe.Holds p c`: the ring of `p` holds the bytes `c`; **`writeLoop_spec`**, **`readLoop_spec`**.
* `PipeSys.Inv`: what was stored is what was returned and what the ring holds; a sleeping reader
  has nothing to read; each end is closed once.
* `PipeSys.Good`: what a user of the pipe relies on.
* **`pipe_good_iff`**: it holds throughout a run if and only if no killed writer gives up on a full
  pipe while a reader sleeps.
-/

namespace OsPlayground

open Lib

/-! ## The ring -/

/-- The ring holds the bytes `c`. -/
structure Pipe.Holds (p : Pipe) (c : List ℕ) : Prop where
  ahead : Ahead PIPESIZE UINTS p.nread p.nwrite c.length
  ring : Ring PIPESIZE p.data p.nread c

section Ring

variable {p : Pipe} {c : List ℕ}

theorem pipesize_dvd : PIPESIZE ∣ UINTS := by decide

theorem pipesize_lt : PIPESIZE < UINTS := by decide

theorem Pipe.Holds.full_iff (h : p.Holds c) : p.full = true ↔ c.length = PIPESIZE := by
  rw [Pipe.full, decide_eq_true_iff, h.ahead.full_iff pipesize_lt]

theorem Pipe.Holds.empty_iff (h : p.Holds c) : p.empty = true ↔ c = [] := by
  rw [Pipe.empty, decide_eq_true_iff, h.ahead.eq_iff pipesize_lt, List.length_eq_zero_iff]

theorem Pipe.Holds.put (h : p.Holds c) (b : ℕ) (hfull : p.full = false) :
    (p.put b).Holds (c ++ [b]) := by
  have hlt : c.length < PIPESIZE := by
    refine lt_of_le_of_ne h.ahead.room fun he => ?_
    rw [h.full_iff.mpr he] at hfull
    cases hfull
  refine ⟨?_, h.ring.push hlt pipesize_dvd h.ahead.write⟩
  rw [List.length_append, List.length_singleton]
  exact h.ahead.push hlt

theorem Pipe.Holds.advance {b : ℕ} (h : p.Holds (b :: c)) :
    p.data (p.nread % PIPESIZE) = b ∧ p.advance.Holds c := by
  obtain ⟨hb, hring⟩ := h.ring.pop pipesize_dvd
  exact ⟨hb, h.ahead.pop, hring⟩

/-- **The loop of `pipewrite`** stores what there is room for, and decides by `readopen` and
`killed` what to do about the rest. -/
theorem writeLoop_spec (killed : Bool) (bs : List ℕ) (h : p.Holds c) :
    (writeLoop killed bs p).1.Holds (c ++ bs.take (PIPESIZE - c.length)) ∧
      (writeLoop killed bs p).1.readopen = p.readopen ∧
      (writeLoop killed bs p).1.writeopen = p.writeopen ∧
      (writeLoop killed bs p).2.1 = bs.take (PIPESIZE - c.length) ∧
      (writeLoop killed bs p).2.2 =
        if bs.length ≤ PIPESIZE - c.length then .done
        else if p.readopen = false ∨ killed = true then .fail
        else .sleep (bs.drop (PIPESIZE - c.length)) := by
  induction bs generalizing p c with
  | nil => simpa [writeLoop] using h
  | cons b bs ih =>
    have hroom := h.ahead.room
    unfold writeLoop
    by_cases hfull : p.full = true
    · have hlen := h.full_iff.mp hfull
      have hzero : PIPESIZE - c.length = 0 := by omega
      have hlong : ¬ (b :: bs).length ≤ 0 := Nat.not_le.mpr (Nat.zero_lt_succ _)
      rw [if_pos hfull, hzero, if_neg hlong]
      by_cases hr : p.readopen = false ∨ killed = true
      · rw [if_pos hr, if_pos hr]
        simpa using h
      · rw [if_neg hr, if_neg hr]
        simpa using h
    · have hne : c.length ≠ PIPESIZE := fun hl => hfull (h.full_iff.mpr hl)
      have hsucc : PIPESIZE - c.length = (PIPESIZE - (c ++ [b]).length) + 1 := by
        rw [List.length_append, List.length_singleton]
        omega
      obtain ⟨h₁, h₂, h₃, h₄, h₅⟩ := ih (h.put b (Bool.eq_false_iff.mpr hfull))
      rw [if_neg hfull, hsucc]
      dsimp only
      refine ⟨?_, h₂, h₃, ?_, ?_⟩
      · simpa using h₁
      · rw [List.take_succ_cons, h₄]
      · rw [show (p.put b).readopen = p.readopen from rfl] at h₅
        simpa using h₅

/-- **The loop of `piperead`** returns the first bytes. -/
theorem readLoop_spec (n : ℕ) (h : p.Holds c) :
    (readLoop n p).1.Holds (c.drop n) ∧ (readLoop n p).1.readopen = p.readopen ∧
      (readLoop n p).1.writeopen = p.writeopen ∧ (readLoop n p).2 = c.take n := by
  induction n generalizing p c with
  | zero => simpa [readLoop] using h
  | succ n ih =>
    unfold readLoop
    by_cases hempty : p.empty = true
    · obtain rfl := h.empty_iff.mp hempty
      simpa [hempty] using h
    · rcases c with _ | ⟨b, c⟩
      · exact absurd (h.empty_iff.mpr rfl) hempty
      · obtain ⟨hb, hadv⟩ := h.advance
        obtain ⟨h₁, h₂, h₃, h₄⟩ := ih hadv
        rw [if_neg hempty]
        dsimp only
        refine ⟨h₁, h₂, h₃, ?_⟩
        rw [List.take_succ_cons, h₄, hb]

end Ring

/-! ## Counting processes -/

/-- The number of processes at `x`. -/
def tally {N : ℕ} (pc : Fin N → PipePc) (x : PipePc) : ℕ := ∑ q, if pc q = x then 1 else 0

section Tally

variable {N : ℕ} {v : Fin N → PipePc} {q : Fin N} {x y : PipePc}

theorem tally_update (v : Fin N → PipePc) (q : Fin N) (x y : PipePc) :
    tally (Function.update v q y) x + (if v q = x then 1 else 0) =
      tally v x + if y = x then 1 else 0 := by
  have h := sum_change (Finset.mem_univ q) (f := fun r => if v r = x then 1 else 0)
    (g := fun r => if Function.update v q y r = x then 1 else 0)
    fun r _ hr => by rw [Function.update_of_ne hr]
  simpa [tally] using h

theorem tally_pos (h : v q = x) : 0 < tally v x := by
  have hle := Finset.single_le_sum (f := fun r => if v r = x then 1 else 0)
    (fun _ _ => Nat.zero_le _) (Finset.mem_univ q)
  simp only [h, if_true] at hle
  exact hle

theorem tally_eq_zero (h : ∀ q, v q ≠ x) : tally v x = 0 :=
  Finset.sum_eq_zero fun q _ => if_neg (h q)

theorem tally_update_of_ne (h₁ : v q ≠ x) (h₂ : y ≠ x) :
    tally (Function.update v q y) x = tally v x := by
  have h := tally_update v q x y
  rwa [if_neg h₁, if_neg h₂] at h

end Tally

/-! ## The invariant -/

namespace PipeSys

variable {N : ℕ}

/-- The invariant of a pipe. -/
structure Inv (s : PipeSys N) : Prop where
  /-- What was stored was returned or is in the ring. -/
  fifo : ∃ c, s.pipe.Holds c ∧ s.stored = s.taken ++ c
  reader : ∀ q, s.asleep q = true → (s.pc q).reading = true →
    s.pipe.empty = true ∧ s.pipe.writeopen = true
  inRead : ∀ q, (s.pc q).reading = true → s.rfile = true
  inWrite : ∀ q, (s.pc q).writing = true → s.wfile = true
  readopen : s.rfile = true → s.pipe.readopen = true
  writeopen : s.wfile = true → s.pipe.writeopen = true
  closeRead : tally s.pc (.close false) = if s.rfile = false ∧ s.pipe.readopen = true then 1 else 0
  closeWrite : tally s.pc (.close true) = if s.wfile = false ∧ s.pipe.writeopen = true then 1 else 0
  freed : tally s.pc .free + s.frees =
    if s.pipe.readopen = false ∧ s.pipe.writeopen = false then 1 else 0

/-- What a user of the pipe relies on, in a state with `p->lock` free. -/
structure Good (s : PipeSys N) : Prop where
  bound : (s.pipe.nwrite + UINTS - s.pipe.nread) % UINTS ≤ PIPESIZE
  fifo : s.taken <+: s.stored
  /-- A read of some bytes that returns none found the pipe empty and the write end closed. -/
  eof : ∀ killed n p, 0 < n → piperead killed n s.pipe = .done p [] →
    s.pipe.empty = true ∧ s.pipe.writeopen = false
  /-- A reader sleeps only while the pipe is empty and the write end open. -/
  woken : ∀ q n, s.asleep q = true → s.pc q = .read n →
    s.pipe.empty = true ∧ s.pipe.writeopen = true
  freedOnce : s.frees ≤ 1
  freedAfter : s.frees = 1 → s.pipe.readopen = false ∧ s.pipe.writeopen = false
  freedFinally : s.pipe.readopen = false → s.pipe.writeopen = false → (∀ q, s.pc q ≠ .free) →
    s.frees = 1

theorem Inv.good {s : PipeSys N} (h : s.Inv) : s.Good := by
  obtain ⟨c, hc, hst⟩ := h.fifo
  have hfreed := h.freed
  refine ⟨?_, ⟨c, hst.symm⟩, fun killed n p hn hr => ?_, fun q n hq hp => ?_, ?_, fun hf => ?_,
    fun hr hw hn => ?_⟩
  · rw [hc.ahead.sub_eq pipesize_lt]
    exact hc.ahead.room
  · unfold piperead at hr
    split_ifs at hr with hempty
    have hbs : (readLoop n s.pipe).2 = [] := by
      injection hr
    rw [(readLoop_spec n hc).2.2.2] at hbs
    have hnil : c = [] := by
      rcases List.take_eq_nil_iff.mp hbs with h0 | h0
      · omega
      · exact h0
    have he := hc.empty_iff.mpr hnil
    refine ⟨he, ?_⟩
    by_contra hw
    exact hempty ⟨he, Bool.eq_true_of_not_eq_false hw⟩
  · exact h.reader q hq (by rw [hp]; rfl)
  · split_ifs at hfreed <;> omega
  · split_ifs at hfreed with hboth
    · exact hboth
    · omega
  · rw [if_pos ⟨hr, hw⟩, tally_eq_zero hn] at hfreed
    omega

/-! ## Steps -/

variable {s s' : PipeSys N} {q : Fin N}

@[simp] theorem idle_reading : PipePc.idle.reading = false := rfl
@[simp] theorem idle_writing : PipePc.idle.writing = false := rfl
@[simp] theorem read_writing (n : ℕ) : (PipePc.read n).writing = false := rfl
@[simp] theorem write_reading (bs : List ℕ) : (PipePc.write bs).reading = false := rfl

@[simp] theorem setPc_pipe (pc : PipePc) : (s.setPc q pc).pipe = s.pipe := rfl
@[simp] theorem setPc_asleep (pc : PipePc) : (s.setPc q pc).asleep = s.asleep := rfl
@[simp] theorem wakeReaders_pipe : s.wakeReaders.pipe = s.pipe := rfl
@[simp] theorem wakeReaders_pc : s.wakeReaders.pc = s.pc := rfl
@[simp] theorem wakeWriters_pipe : s.wakeWriters.pipe = s.pipe := rfl
@[simp] theorem wakeWriters_pc : s.wakeWriters.pc = s.pc := rfl
@[simp] theorem sleep_pipe : (s.sleep q).pipe = s.pipe := rfl
@[simp] theorem sleep_pc : (s.sleep q).pc = s.pc := rfl

theorem setPc_pc (pc : PipePc) (r : Fin N) :
    (s.setPc q pc).pc r = if r = q then pc else s.pc r := by
  by_cases hr : r = q
  · subst hr
    simp [setPc]
  · rw [if_neg hr]
    exact Function.update_of_ne hr _ _

theorem not_asleep_wakeReaders {r : Fin N} (h : (s.pc r).reading = true) :
    s.wakeReaders.asleep r = false := by
  simp [wakeReaders, h]

theorem asleep_of_wakeWriters {r : Fin N} (h : s.wakeWriters.asleep r = true) :
    s.asleep r = true := by
  simp only [wakeWriters, Bool.and_eq_true] at h
  exact h.1

/-- The process is at the start, or in the middle, of `pipewrite`. -/
def AtWrite (s : PipeSys N) (q : Fin N) : Prop :=
  s.wfile = true ∧ (s.pc q = .idle ∨ (s.pc q).writing = true)

/-- The process is in `piperead`, or could call it. -/
def AtRead (s : PipeSys N) (q : Fin N) : Prop :=
  s.rfile = true ∧ (s.pc q = .idle ∨ (s.pc q).reading = true)

/-- A process between calls of `pipeclose` moves to another such point. -/
theorem Inv.move (h : s.Inv) {v : PipePc}
    (hq : s.pc q = .idle ∨ (s.pc q).reading = true ∨ (s.pc q).writing = true)
    (hread : v.reading = true → s.rfile = true) (hwrite : v.writing = true → s.wfile = true)
    (hpc : v = .idle ∨ v.reading = true ∨ v.writing = true) {s' : PipeSys N}
    (hs' : s'.pc = (s.setPc q v).pc) (hr : s'.rfile = s.rfile) (hw : s'.wfile = s.wfile)
    (hro : s'.pipe.readopen = s.pipe.readopen) (hwo : s'.pipe.writeopen = s.pipe.writeopen)
    (hf : s'.frees = s.frees) (hfifo : ∃ c, s'.pipe.Holds c ∧ s'.stored = s'.taken ++ c)
    (hreader : ∀ q, s'.asleep q = true → (s'.pc q).reading = true →
      s'.pipe.empty = true ∧ s'.pipe.writeopen = true) : s'.Inv := by
  have hnot : ∀ x : PipePc, (x = .idle ∨ x.reading = true ∨ x.writing = true) →
      x ≠ .free ∧ ∀ w, x ≠ .close w := by
    rintro x (rfl | hx | hx)
    · exact ⟨(by simp), (by simp)⟩
    · cases x <;> simp_all [PipePc.reading]
    · cases x <;> simp_all [PipePc.writing]
  have htally : ∀ x : PipePc, x = .free ∨ (∃ w, x = .close w) → tally s'.pc x = tally s.pc x := by
    intro x hx
    rw [hs']
    refine tally_update_of_ne (fun he => ?_) fun he => ?_
    · rcases hx with rfl | ⟨w, rfl⟩
      · exact (hnot _ hq).1 he
      · exact (hnot _ hq).2 w he
    · rcases hx with rfl | ⟨w, rfl⟩
      · exact (hnot _ hpc).1 he
      · exact (hnot _ hpc).2 w he
  refine ⟨hfifo, hreader, fun r hr' => ?_, fun r hr' => ?_, ?_, ?_, ?_, ?_, ?_⟩
  · rw [hs', setPc_pc] at hr'
    rw [hr]
    split_ifs at hr'
    · exact hread hr'
    · exact h.inRead r hr'
  · rw [hs', setPc_pc] at hr'
    rw [hw]
    split_ifs at hr'
    · exact hwrite hr'
    · exact h.inWrite r hr'
  · rw [hr, hro]
    exact h.readopen
  · rw [hw, hwo]
    exact h.writeopen
  · rw [htally _ (.inr ⟨_, rfl⟩), hr, hro, h.closeRead]
  · rw [htally _ (.inr ⟨_, rfl⟩), hw, hwo, h.closeWrite]
  · rw [htally _ (.inl rfl), hf, hro, hwo, h.freed]

/-- What there is room for. -/
def room (s : PipeSys N) : ℕ := PIPESIZE - (s.pipe.nwrite + UINTS - s.pipe.nread) % UINTS

/-- The writer does not give up on a full pipe, killed, while a reader sleeps. -/
def KeepsPromise (s : PipeSys N) (q : Fin N) (bs : List ℕ) : Prop :=
  s.killed q = true → s.room < bs.length → ∀ r n, s.pc r = .read n → s.asleep r = false

theorem room_eq {c : List ℕ} (hc : s.pipe.Holds c) : s.room = PIPESIZE - c.length := by
  rw [room, hc.ahead.sub_eq pipesize_lt]

/-- **A section of `pipewrite`.** -/
theorem inv_write {bs : List ℕ} (h : s.Inv) (hq : s.AtWrite q)
    (hk : s.KeepsPromise q bs) : (s.write q bs).Inv := by
  obtain ⟨c, hc, hst⟩ := h.fifo
  obtain ⟨hh, hro, hwo, hstored, hend⟩ := writeLoop_spec (s.killed q) bs hc
  rw [← room_eq hc] at hh hstored hend
  have hpc : s.pc q = .idle ∨ (s.pc q).reading = true ∨ (s.pc q).writing = true :=
    hq.2.imp_right .inr
  have hfifo : s.stored ++ (writeLoop (s.killed q) bs s.pipe).2.1 =
      s.taken ++ (c ++ bs.take s.room) := by
    rw [hstored, hst, List.append_assoc]
  unfold write
  dsimp only
  rw [hend]
  split_ifs with hlen hfail
  · refine h.move (v := .idle) hpc (by simp) (by simp) (.inl rfl) rfl rfl rfl hro hwo rfl
      ⟨_, hh, hfifo⟩ fun r hr hread => ?_
    exact absurd hr (Bool.eq_false_iff.mp (not_asleep_wakeReaders hread))
  · refine h.move (v := .idle) hpc (by simp) (by simp) (.inl rfl) rfl rfl rfl hro hwo rfl
      ⟨_, hh, hfifo⟩ fun r hr hread => ?_
    -- no reader sleeps: the read end is closed, or the writer was killed
    have hread' : (s.pc r).reading = true := by
      change ((s.setPc q .idle).pc r).reading = true at hread
      rw [setPc_pc] at hread
      split_ifs at hread
      · cases hread
      · exact hread
    change s.asleep r = true at hr
    exfalso
    rcases hfail with hclosed | hkilled
    · rw [h.readopen (h.inRead r hread')] at hclosed
      cases hclosed
    · rcases hp : s.pc r with _ | _ | n | _ | _
      all_goals rw [hp] at hread'
      · cases hread'
      · cases hread'
      · have := hk hkilled (Nat.lt_of_not_le hlen) r n hp
        exact absurd hr (Bool.eq_false_iff.mp this)
      · cases hread'
      · cases hread'
  · refine h.move (v := .write _) hpc (by simp) (fun _ => hq.1) (.inr (.inr rfl)) rfl rfl rfl hro hwo
      rfl ⟨_, hh, hfifo⟩ fun r hr hread => ?_
    have hne : r ≠ q := by
      rintro rfl
      change ((s.setPc r (.write _)).pc r).reading = true at hread
      rw [setPc_pc, if_pos rfl] at hread
      cases hread
    have hr' : (s.setPc q (.write (bs.drop s.room))).wakeReaders.asleep r = true := by
      simpa [sleep, wakeReaders, setPc, Function.update_of_ne hne] using hr
    exact absurd hr' (Bool.eq_false_iff.mp (not_asleep_wakeReaders hread))

/-- **A section of `piperead`.** -/
theorem inv_read {n : ℕ} (h : s.Inv) (hq : s.AtRead q) : (s.read q n).Inv := by
  obtain ⟨c, hc, hst⟩ := h.fifo
  have hpc : s.pc q = .idle ∨ (s.pc q).reading = true ∨ (s.pc q).writing = true :=
    hq.2.imp_right .inl
  unfold read piperead
  by_cases hempty : s.pipe.empty = true ∧ s.pipe.writeopen = true
  · rw [if_pos hempty]
    by_cases hk : s.killed q = true
    · rw [if_pos hk]
      refine h.move (v := .idle) hpc (by simp) (by simp) (.inl rfl) rfl rfl rfl rfl rfl rfl ⟨c, hc, hst⟩
        fun r hr hread => ?_
      exact hempty
    · rw [if_neg hk]
      exact h.move (v := .read n) hpc (fun _ => hq.1) (by simp) (.inr (.inl rfl)) rfl rfl rfl rfl rfl
        rfl ⟨c, hc, hst⟩ fun _ _ _ => hempty
  · rw [if_neg hempty]
    obtain ⟨hh, hro, hwo, htaken⟩ := readLoop_spec n hc
    have hfifo : s.stored = s.taken ++ (readLoop n s.pipe).2 ++ c.drop n := by
      rw [htaken, List.append_assoc, List.take_append_drop, hst]
    refine h.move (v := .idle) hpc (by simp) (by simp) (.inl rfl) rfl rfl rfl hro hwo rfl ⟨_, hh, hfifo⟩
      fun r hr hread => ?_
    -- a reader that slept had nothing to read
    have hread' : (s.pc r).reading = true := by
      change ((s.setPc q .idle).pc r).reading = true at hread
      rw [setPc_pc] at hread
      split_ifs at hread
      · cases hread
      · exact hread
    exact absurd (h.reader r (asleep_of_wakeWriters (s := s.setPc q .idle) hr) hread') hempty

theorem update_of_busy {x : PipePc} (hx : x.reading = false ∧ x.writing = false) {r : Fin N}
    (hr : (Function.update s.pc q x r).reading = true ∨
      (Function.update s.pc q x r).writing = true) : Function.update s.pc q x r = s.pc r := by
  refine Function.update_of_ne (fun hrq => ?_) _ _
  rw [hrq, Function.update_self, hx.1, hx.2] at hr
  exact hr.elim Bool.false_ne_true Bool.false_ne_true

/-- `pipeclose` of the write end; `x` says whether the page is to be freed. -/
theorem inv_closeWrite {x : PipePc} (h : s.Inv) (hq : s.pc q = .close true)
    (hx : x = .free ∧ s.pipe.readopen = false ∨ x = .idle ∧ s.pipe.readopen = true) :
    ({ s with pipe := { s.pipe with writeopen := false } }.wakeReaders.setPc q x).Inv := by
  obtain ⟨c, hc, hst⟩ := h.fifo
  have hfree := h.freed
  have hcw := h.closeWrite
  have hpos := tally_pos hq
  have hopen : s.wfile = false ∧ s.pipe.writeopen = true := by
    by_contra hno
    rw [if_neg hno] at hcw
    omega
  have hnot : ¬ (s.pipe.readopen = false ∧ s.pipe.writeopen = false) := by simp [hopen.2]
  rw [if_pos hopen] at hcw
  rw [if_neg hnot] at hfree
  have hbusy : x.reading = false ∧ x.writing = false := by
    rcases hx with ⟨rfl, -⟩ | ⟨rfl, -⟩ <;> exact ⟨rfl, rfl⟩
  have hother : ∀ r, (Function.update s.pc q x r).reading = true ∨
      (Function.update s.pc q x r).writing = true → Function.update s.pc q x r = s.pc r :=
    fun _ => update_of_busy hbusy
  refine ⟨⟨c, ⟨hc.ahead, hc.ring⟩, hst⟩, fun r hr hread => ?_, fun r hr => ?_, fun r hr => ?_,
    h.readopen, fun hw => ?_, ?_, ?_, ?_⟩
  · have hread' : (s.pc r).reading = true := by rwa [← hother r (.inl hread)]
    exact absurd hr (Bool.eq_false_iff.mp (not_asleep_wakeReaders hread'))
  · exact h.inRead r (by rwa [← hother r (.inl hr)])
  · exact h.inWrite r (by rwa [← hother r (.inr hr)])
  · rw [show s.wfile = true from hw] at hopen
    exact absurd hopen.1 (by decide)
  · have ht := tally_update_of_ne (v := s.pc) (q := q) (x := .close false) (y := x)
      (by rw [hq]; decide) (by rcases hx with ⟨rfl, -⟩ | ⟨rfl, -⟩ <;> decide)
    exact ht.trans h.closeRead
  · have ht := tally_update s.pc q (.close true) x
    have hne : x ≠ .close true := by rcases hx with ⟨rfl, -⟩ | ⟨rfl, -⟩ <;> decide
    rw [if_pos hq, if_neg hne, hcw] at ht
    have h0 : tally (Function.update s.pc q x) (.close true) = 0 := by omega
    exact h0.trans (by simp [setPc, wakeReaders])
  · have ht := tally_update s.pc q .free x
    rw [if_neg (by rw [hq]; decide)] at ht
    change tally (Function.update s.pc q x) .free + s.frees =
      if s.pipe.readopen = false ∧ false = false then 1 else 0
    rcases hx with ⟨rfl, hro⟩ | ⟨rfl, hro⟩
    · rw [if_pos rfl] at ht
      rw [if_pos ⟨hro, rfl⟩]
      omega
    · rw [if_neg (by decide)] at ht
      rw [if_neg (by simp [hro])]
      omega

/-- `pipeclose` of the read end. -/
theorem inv_closeRead {x : PipePc} (h : s.Inv) (hq : s.pc q = .close false)
    (hx : x = .free ∧ s.pipe.writeopen = false ∨ x = .idle ∧ s.pipe.writeopen = true) :
    ({ s with pipe := { s.pipe with readopen := false } }.wakeWriters.setPc q x).Inv := by
  obtain ⟨c, hc, hst⟩ := h.fifo
  have hfree := h.freed
  have hcr := h.closeRead
  have hpos := tally_pos hq
  have hopen : s.rfile = false ∧ s.pipe.readopen = true := by
    by_contra hno
    rw [if_neg hno] at hcr
    omega
  have hnot : ¬ (s.pipe.readopen = false ∧ s.pipe.writeopen = false) := by simp [hopen.2]
  rw [if_pos hopen] at hcr
  rw [if_neg hnot] at hfree
  have hbusy : x.reading = false ∧ x.writing = false := by
    rcases hx with ⟨rfl, -⟩ | ⟨rfl, -⟩ <;> exact ⟨rfl, rfl⟩
  have hother : ∀ r, (Function.update s.pc q x r).reading = true ∨
      (Function.update s.pc q x r).writing = true → Function.update s.pc q x r = s.pc r :=
    fun _ => update_of_busy hbusy
  refine ⟨⟨c, ⟨hc.ahead, hc.ring⟩, hst⟩, fun r hr hread => ?_, fun r hr => ?_, fun r hr => ?_,
    fun hw => ?_, h.writeopen, ?_, ?_, ?_⟩
  · have hread' : (s.pc r).reading = true := by rwa [← hother r (.inl hread)]
    exact h.reader r (asleep_of_wakeWriters hr) hread'
  · exact h.inRead r (by rwa [← hother r (.inl hr)])
  · exact h.inWrite r (by rwa [← hother r (.inr hr)])
  · rw [show s.rfile = true from hw] at hopen
    exact absurd hopen.1 (by decide)
  · have ht := tally_update s.pc q (.close false) x
    have hne : x ≠ .close false := by rcases hx with ⟨rfl, -⟩ | ⟨rfl, -⟩ <;> decide
    rw [if_pos hq, if_neg hne, hcr] at ht
    have h0 : tally (Function.update s.pc q x) (.close false) = 0 := by omega
    exact h0.trans (by simp [setPc, wakeWriters])
  · have ht := tally_update_of_ne (v := s.pc) (q := q) (x := .close true) (y := x)
      (by rw [hq]; decide) (by rcases hx with ⟨rfl, -⟩ | ⟨rfl, -⟩ <;> decide)
    exact ht.trans h.closeWrite
  · have ht := tally_update s.pc q .free x
    rw [if_neg (by rw [hq]; decide)] at ht
    change tally (Function.update s.pc q x) .free + s.frees =
      if false = false ∧ s.pipe.writeopen = false then 1 else 0
    rcases hx with ⟨rfl, hwo⟩ | ⟨rfl, hwo⟩
    · rw [if_pos rfl] at ht
      rw [if_pos ⟨rfl, hwo⟩]
      omega
    · rw [if_neg (by decide)] at ht
      rw [if_neg (by simp [hwo])]
      omega

/-- **The section of `pipeclose`.** -/
theorem inv_close {w : Bool} (h : s.Inv) (hq : s.pc q = .close w) : (s.close q w).Inv := by
  unfold close
  cases w with
  | true =>
    by_cases hro : s.pipe.readopen = false
    · simpa [wakeReaders, hro] using inv_closeWrite h hq (.inl ⟨rfl, hro⟩)
    · simpa [wakeReaders, hro] using inv_closeWrite h hq
        (.inr ⟨rfl, Bool.eq_true_of_not_eq_false hro⟩)
  | false =>
    by_cases hwo : s.pipe.writeopen = false
    · simpa [wakeWriters, hwo] using inv_closeRead h hq (.inl ⟨rfl, hwo⟩)
    · simpa [wakeWriters, hwo] using inv_closeRead h hq
        (.inr ⟨rfl, Bool.eq_true_of_not_eq_false hwo⟩)

/-- The call of `pipeclose` by `fileclose`. -/
theorem inv_fileclose {w : Bool} (h : s.Inv) (hs : pipeStep (.close q w) s = some s') : s'.Inv := by
  obtain ⟨c, hc, hst⟩ := h.fifo
  have hfree := h.freed
  have hother : ∀ r, (Function.update s.pc q (.close w) r).reading = true ∨
      (Function.update s.pc q (.close w) r).writing = true →
      Function.update s.pc q (.close w) r = s.pc r := by
    intro r hr
    by_cases hrq : r = q
    · rw [hrq, Function.update_self] at hr
      simp [PipePc.reading, PipePc.writing] at hr
    · exact Function.update_of_ne hrq _ _
  have htally : ∀ x : PipePc, s.pc q = .idle → x ≠ .idle → x ≠ .close w →
      tally (Function.update s.pc q (.close w)) x = tally s.pc x := by
    intro x hidle h₁ h₂
    exact tally_update_of_ne (by rw [hidle]; exact h₁.symm) h₂.symm
  have hone : s.pc q = .idle →
      tally (Function.update s.pc q (.close w)) (.close w) = tally s.pc (.close w) + 1 := by
    intro hidle
    have ht := tally_update s.pc q (.close w) (.close w)
    rwa [hidle, if_neg (by simp), if_pos rfl] at ht
  cases w with
  | true =>
    simp only [pipeStep] at hs
    split_ifs at hs with hg
    obtain ⟨hidle, hfile, hnone⟩ := hg
    obtain rfl := Option.some.inj hs
    have hcw := h.closeWrite
    refine ⟨⟨c, hc, hst⟩, fun r hr hread => ?_, fun r hr => ?_, fun r hr => ?_, h.readopen,
      fun hw => ?_, ?_, ?_, ?_⟩
    · exact h.reader r hr (by rwa [← hother r (.inl hread)])
    · exact h.inRead r (by rwa [← hother r (.inl hr)])
    · have := hnone r
      rw [← hother r (.inr hr)] at this
      exact absurd hr (Bool.eq_false_iff.mp this)
    · cases hw
    · exact (htally _ hidle (by decide) (by decide)).trans h.closeRead
    · have hw := h.writeopen hfile
      rw [hfile, if_neg (by simp)] at hcw
      refine (hone hidle).trans ?_
      rw [hcw]
      exact (if_pos ⟨rfl, hw⟩).symm
    · exact (congrArg (· + s.frees) (htally _ hidle (by decide) (by decide))).trans hfree
  | false =>
    simp only [pipeStep] at hs
    split_ifs at hs with hg
    obtain ⟨hidle, hfile, hnone⟩ := hg
    obtain rfl := Option.some.inj hs
    have hcr := h.closeRead
    refine ⟨⟨c, hc, hst⟩, fun r hr hread => ?_, fun r hr => ?_, fun r hr => ?_,
      fun hw => ?_, h.writeopen, ?_, ?_, ?_⟩
    · exact h.reader r hr (by rwa [← hother r (.inl hread)])
    · have := hnone r
      rw [← hother r (.inl hr)] at this
      exact absurd hr (Bool.eq_false_iff.mp this)
    · exact h.inWrite r (by rwa [← hother r (.inr hr)])
    · cases hw
    · have hw := h.readopen hfile
      rw [hfile, if_neg (by simp)] at hcr
      refine (hone hidle).trans ?_
      rw [hcr]
      exact (if_pos ⟨rfl, hw⟩).symm
    · exact (htally _ hidle (by decide) (by decide)).trans h.closeWrite
    · exact (congrArg (· + s.frees) (htally _ hidle (by decide) (by decide))).trans hfree

/-- `kfree` of the page. -/
theorem inv_kfree (h : s.Inv) (hq : s.pc q = .free) :
    ({ s.setPc q .idle with frees := s.frees + 1 } : PipeSys N).Inv := by
  have hfree := h.freed
  have ht := tally_update s.pc q .free .idle
  rw [if_pos hq, if_neg (by decide)] at ht
  have htally : ∀ x : PipePc, x ≠ .idle → x ≠ .free →
      tally (Function.update s.pc q .idle) x = tally s.pc x := by
    intro x h₁ h₂
    exact tally_update_of_ne (by rw [hq]; exact h₂.symm) h₁.symm
  have hother : ∀ r, (Function.update s.pc q .idle r).reading = true ∨
      (Function.update s.pc q .idle r).writing = true →
      Function.update s.pc q .idle r = s.pc r := by
    intro r hr
    by_cases hrq : r = q
    · rw [hrq, Function.update_self] at hr
      simp [PipePc.reading, PipePc.writing] at hr
    · exact Function.update_of_ne hrq _ _
  refine ⟨h.fifo, fun r hr hread => ?_, fun r hr => ?_, fun r hr => ?_, h.readopen, h.writeopen,
    ?_, ?_, ?_⟩
  · exact h.reader r hr (by rwa [← hother r (.inl hread)])
  · exact h.inRead r (by rwa [← hother r (.inl hr)])
  · exact h.inWrite r (by rwa [← hother r (.inr hr)])
  · exact (htally _ (by decide) (by decide)).trans h.closeRead
  · exact (htally _ (by decide) (by decide)).trans h.closeWrite
  · refine Eq.trans ?_ hfree
    change tally (Function.update s.pc q .idle) .free + (s.frees + 1) = _
    omega

end PipeSys

/-! ## Runs -/

section Runs

variable {N : ℕ} {s s' : PipeSys N} {e : PipeEvent N}

/-- The section that `e` runs, if it is one of `pipewrite`, keeps its promise to the readers. -/
def WritersWake (s : PipeSys N) (e : PipeEvent N) (_ : PipeSys N) : Prop :=
  ∀ q bs, (e = .write q bs ∨ e = .resume q ∧ s.pc q = .write bs) → s.KeepsPromise q bs

/-- **What one step keeps.** -/
theorem pipe_inv_step (h : s.Inv) (hw : WritersWake s e s') (hs : pipeStep e s = some s') :
    s'.Inv := by
  cases e with
  | write q bs =>
    simp only [pipeStep] at hs
    split_ifs at hs with hg
    obtain rfl := Option.some.inj hs
    exact PipeSys.inv_write h ⟨hg.2, .inl hg.1⟩ (hw q bs (.inl rfl))
  | read q n =>
    simp only [pipeStep] at hs
    split_ifs at hs with hg
    obtain rfl := Option.some.inj hs
    exact PipeSys.inv_read h ⟨hg.2, .inl hg.1⟩
  | close q w => exact PipeSys.inv_fileclose h hs
  | resume q =>
    simp only [pipeStep] at hs
    split_ifs at hs
    rcases hp : s.pc q with _ | bs | n | w | _
    · rw [hp] at hs
      cases hs
    · rw [hp] at hs
      obtain rfl := Option.some.inj hs
      have hwr : (s.pc q).writing = true := by rw [hp]; rfl
      exact PipeSys.inv_write h ⟨h.inWrite q hwr, .inr hwr⟩ (hw q bs (.inr ⟨rfl, hp⟩))
    · rw [hp] at hs
      obtain rfl := Option.some.inj hs
      have hrd : (s.pc q).reading = true := by rw [hp]; rfl
      exact PipeSys.inv_read h ⟨h.inRead q hrd, .inr hrd⟩
    · rw [hp] at hs
      obtain rfl := Option.some.inj hs
      exact PipeSys.inv_close h hp
    · rw [hp] at hs
      obtain rfl := Option.some.inj hs
      exact PipeSys.inv_kfree h hp
  | kill q =>
    obtain rfl := Option.some.inj hs
    refine ⟨h.fifo, fun r hr hread => h.reader r ?_ hread, h.inRead, h.inWrite, h.readopen,
      h.writeopen, h.closeRead, h.closeWrite, h.freed⟩
    by_cases hrq : r = q
    · subst hrq
      simp at hr
    · simpa [Function.update_of_ne hrq] using hr

/-- A killed writer that gives up on a full pipe leaves a sleeping reader behind. -/
theorem PipeSys.keepsPromise_of_good {q : Fin N} {bs : List ℕ} (h : s.Inv)
    (hq : s.pc q = .idle ∨ (s.pc q).writing = true) (hg : (s.write q bs).Good) :
    s.KeepsPromise q bs := by
  intro hk hroom r n hr
  by_contra hsleep
  have hasleep : s.asleep r = true := Bool.eq_true_of_not_eq_false hsleep
  have hread : (s.pc r).reading = true := by rw [hr]; rfl
  obtain ⟨c, hc, hst⟩ := h.fifo
  have hnil : c = [] := hc.empty_iff.mp (h.reader r hasleep hread).1
  subst hnil
  obtain ⟨hh, -, -, -, hend⟩ := writeLoop_spec (s.killed q) bs hc
  rw [← room_eq hc] at hh hend
  rw [if_neg (Nat.not_le.mpr hroom), if_pos (.inr hk)] at hend
  have hne : r ≠ q := by
    rintro rfl
    rw [hr] at hq
    rcases hq with hq | hq <;> cases hq
  have hwoken := hg.woken r n
  unfold write at hwoken
  dsimp only at hwoken
  rw [hend] at hwoken
  have hempty := (hwoken hasleep (by
    change (s.setPc q .idle).pc r = _
    rw [setPc_pc, if_neg hne, hr])).1
  have hlen := congrArg List.length (hh.empty_iff.mp hempty)
  rw [List.nil_append, List.length_take, List.length_nil] at hlen
  have : s.room = PIPESIZE := room_eq hc
  have hpos : 0 < PIPESIZE := by decide
  omega

theorem writersWake_of_good (h : s.Inv) (hs : pipeStep e s = some s') (hg : s'.Good) :
    WritersWake s e s' := by
  rintro q bs (rfl | ⟨rfl, hp⟩)
  · simp only [pipeStep] at hs
    split_ifs at hs with hguard
    obtain rfl := Option.some.inj hs
    exact PipeSys.keepsPromise_of_good h (.inl hguard.1) hg
  · simp only [pipeStep] at hs
    split_ifs at hs
    rw [hp] at hs
    obtain rfl := Option.some.inj hs
    exact PipeSys.keepsPromise_of_good h (.inr (by rw [hp]; rfl)) hg

theorem pipeStart_inv (N : ℕ) (data : ℕ → ℕ) : (pipeStart N data).Inv := by
  refine ⟨⟨[], ⟨ahead_start (by decide), ring_nil⟩, rfl⟩, fun q h => ?_, fun q h => ?_,
    fun q h => ?_, fun _ => rfl, fun _ => rfl, ?_, ?_, ?_⟩
  · cases h
  · cases h
  · cases h
  · exact tally_eq_zero fun q => by simp [pipeStart]
  · exact tally_eq_zero fun q => by simp [pipeStart]
  · have := tally_eq_zero (v := (pipeStart N data).pc) (x := .free) fun q => by simp [pipeStart]
    rw [this]
    rfl

end Runs

/-- **Pipes.** In every state of a run of one pipe, with any number of processes: the ring is
bounded, bytes are returned in the order in which they were stored, a read returns no byte only at
the end of the data, no reader sleeps while there is something to read or to report, and the page is
freed once, when both ends are closed; if and only if no killed writer gives up on a full pipe while
a reader sleeps. -/
theorem pipe_good_iff {N : ℕ} (data : ℕ → ℕ) (es : List (PipeEvent N)) :
    Throughout pipeStep PipeSys.Good es (pipeStart N data) ↔
      Along pipeStep WritersWake es (pipeStart N data) := by
  refine throughout_iff_along_of_keeps ?_ ?_ ?_ (pipeStart_inv N data)
  · exact fun s h => h.good
  · exact fun s e s' h hw hs => pipe_inv_step h hw hs
  · exact fun s e s' h hs hg => writersWake_of_good h hs hg

/-- A reader sleeps; the writer of 513 bytes is killed before the ring is full, and returns without
a wakeup. -/
theorem pipe_reader_left_asleep : ¬ ∀ {N : ℕ} (data : ℕ → ℕ) (es : List (PipeEvent N)),
    Throughout pipeStep PipeSys.Good es (pipeStart N data) := by
  intro h
  have hrun := h (N := 2) (fun _ => 0) [.read 0 1, .kill 1, .write 1 (List.replicate 513 97)]
  have hend := hrun.end rfl
  have hempty := (hend.woken 0 1 (by decide +kernel) (by decide +kernel)).1
  exact absurd hempty (by decide +kernel)

end OsPlayground
