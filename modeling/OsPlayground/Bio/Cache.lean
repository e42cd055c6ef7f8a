import Mathlib.Algebra.BigOperators.Group.Finset.Basic
import Mathlib.Algebra.BigOperators.Group.Finset.Piecewise
import Mathlib.Algebra.Order.BigOperators.Group.Finset
import OsPlayground.Bio.Model
import OsPlayground.Lib.Sums

/-!
# What the buffer cache keeps

* `Listed`: the buffers form one circle through the head, in the order of their last final release.
* `Counted`: the reference counts; `Counted.change`.
* `Coherent`: what the flags, locks and data of the buffers say about the disk.
* **`bcache_sound`**: what the cache promises, in every run.
-/

namespace OsPlayground

namespace Bio

open Lib Log

namespace BufPc

/-- The buffer that the process waits in `iderw` for. -/
def io : BufPc → Option Index
  | .reading b _ | .writing b => some b
  | .running | .waiting _ _ | .releasing _ => none

/-- What the process asked `bread` for, and the buffer it will get. -/
def asked : BufPc → Option (Index × ℕ)
  | .waiting b k | .reading b k => some (b, k)
  | .running | .writing _ | .releasing _ => none

/-- The buffer whose lock the process waits for. -/
def waits : BufPc → Option Index
  | .waiting b _ => some b
  | .running | .reading _ _ | .writing _ | .releasing _ => none

/-- The buffer of which the process has a reference without the lock. -/
def ref : BufPc → Option Index
  | .waiting b _ | .releasing b => some b
  | .running | .reading _ _ | .writing _ => none

end BufPc

variable {n : ℕ} {s s' : Bcache n} {p : Fin n} {b : Index} {f : Buf → Buf} {pc : BufPc}

namespace Bcache

@[simp] theorem setBuf_self : (s.setBuf b f).buf b = f (s.buf b) := Function.update_self _ _ _

theorem setBuf_of_ne {b' : Index} (h : b' ≠ b) : (s.setBuf b f).buf b' = s.buf b' :=
  Function.update_of_ne h _ _

@[simp] theorem setBuf_pc : (s.setBuf b f).pc = s.pc := rfl
@[simp] theorem setBuf_disk : (s.setBuf b f).disk = s.disk := rfl
@[simp] theorem setBuf_queued : (s.setBuf b f).queued = s.queued := rfl
@[simp] theorem setBuf_latest : (s.setBuf b f).latest = s.latest := rfl
@[simp] theorem setBuf_unwritten : (s.setBuf b f).unwritten = s.unwritten := rfl
@[simp] theorem setBuf_links : (s.setBuf b f).links = s.links := rfl
@[simp] theorem setBuf_freed : (s.setBuf b f).freed = s.freed := rfl
@[simp] theorem setBuf_clock : (s.setBuf b f).clock = s.clock := rfl

@[simp] theorem goto_self : (s.goto p pc).pc p = pc := Function.update_self _ _ _

theorem goto_of_ne {q : Fin n} (h : q ≠ p) : (s.goto p pc).pc q = s.pc q :=
  Function.update_of_ne h _ _

@[simp] theorem goto_buf : (s.goto p pc).buf = s.buf := rfl
@[simp] theorem goto_disk : (s.goto p pc).disk = s.disk := rfl
@[simp] theorem goto_queued : (s.goto p pc).queued = s.queued := rfl
@[simp] theorem goto_latest : (s.goto p pc).latest = s.latest := rfl
@[simp] theorem goto_unwritten : (s.goto p pc).unwritten = s.unwritten := rfl
@[simp] theorem goto_links : (s.goto p pc).links = s.links := rfl
@[simp] theorem goto_freed : (s.goto p pc).freed = s.freed := rfl
@[simp] theorem goto_clock : (s.goto p pc).clock = s.clock := rfl

end Bcache

/-! ## The list -/

/-- The list `l` of the buffers, most recently released first. -/
structure Listed (s : Bcache n) (l : List Index) : Prop where
  circle : s.links.Circle l
  all : ∀ b, b ∈ l
  order : l.Pairwise fun a b => s.freed b < s.freed a
  clock : ∀ b, s.freed b < s.clock

namespace Listed

variable {l : List Index}

theorem length (h : Listed s l) : l.length ≤ NBUF := by
  have := h.circle.nodup.length_le_card
  rwa [Fintype.card_fin] at this

theorem congr (h : Listed s l) (hl : s'.links = s.links) (hf : s'.freed = s.freed)
    (hc : s'.clock = s.clock) : Listed s' l :=
  ⟨hl ▸ h.circle, h.all, hf ▸ h.order, fun b => by rw [hf, hc]; exact h.clock b⟩

/-- A final release puts the buffer at the front. -/
theorem release (h : Listed s l) (b : Index) :
    Listed { s with
      links := (s.links.unlink b).pushFront b
      freed := Function.update s.freed b s.clock
      clock := s.clock + 1 } (b :: l.erase b) := by
  have hne : ∀ x ∈ l.erase b, x ≠ b := fun x hx => (h.circle.nodup.mem_erase_iff.mp hx).1
  refine ⟨h.circle.toFront (h.all b), fun x => ?_, ?_, fun x => ?_⟩
  · by_cases hx : x = b
    · exact hx ▸ List.mem_cons_self
    · exact List.mem_cons_of_mem _ ((List.mem_erase_of_ne hx).mpr (h.all x))
  · refine List.pairwise_cons.mpr ⟨fun x hx => ?_, ?_⟩
    · dsimp only
      rw [Function.update_self, Function.update_of_ne (hne x hx)]
      exact h.clock x
    · refine (h.order.sublist List.erase_sublist).imp_of_mem fun {x y} hx hy hxy => ?_
      dsimp only
      rwa [Function.update_of_ne (hne x hx), Function.update_of_ne (hne y hy)]
  · dsimp only
    by_cases hx : x = b
    · rw [hx, Function.update_self]
      exact Nat.lt_succ_self _
    · rw [Function.update_of_ne hx]
      exact Nat.lt_succ_of_lt (h.clock x)

/-- **The first loop of `bget`** looks at every buffer. -/
theorem cached_none (h : Listed s l) {k : ℕ} (hc : cached k s = none) (b : Index) :
    ¬ ((s.buf b).dev = ROOTDEV ∧ (s.buf b).blockno = k) := by
  rw [cached, h.circle.scan_next h.length] at hc
  simpa using List.find?_eq_none.mp hc b (h.all b)

theorem cached_some (h : Listed s l) {k : ℕ} (hc : cached k s = some b) :
    (s.buf b).dev = ROOTDEV ∧ (s.buf b).blockno = k := by
  rw [cached, h.circle.scan_next h.length] at hc
  simpa using List.find?_some hc

theorem recycled_some (h : Listed s l) (hc : recycled s = some b) :
    (s.buf b).refcnt = 0 ∧ (s.buf b).dirty = false := by
  rw [recycled, h.circle.scan_prev h.length] at hc
  simpa using List.find?_some hc

end Listed

theorem foldl_pushFront {l l' : List Index} {k : Links Index} (h : k.Circle l')
    (hd : (l.reverse ++ l').Nodup) :
    (l.foldl (fun k b => k.pushFront b) k).Circle (l.reverse ++ l') := by
  induction l generalizing l' k with
  | nil => exact h
  | cons b l ih =>
    rw [List.reverse_cons, List.append_assoc] at hd ⊢
    have hb : b ∉ l' := (List.nodup_cons.mp (List.nodup_append'.mp hd).2.1).1
    exact ih (h.pushFront hb) hd

theorem bcacheStart_listed (disk : Disk) : Listed (bcacheStart n disk) buffers.reverse := by
  have hempty : (⟨fun _ => none, fun _ => none⟩ : Links Index).Circle [] :=
    ⟨List.nodup_nil, rfl, rfl⟩
  have hnd : (buffers.reverse ++ []).Nodup := by
    rw [List.append_nil]
    exact List.nodup_reverse.mpr (List.nodup_finRange _)
  refine ⟨?_, fun b => List.mem_reverse.mpr (List.mem_finRange b), ?_, fun b => b.isLt⟩
  · have := foldl_pushFront hempty hnd
    rwa [List.append_nil] at this
  · exact List.pairwise_reverse.mpr (List.pairwise_lt_finRange _)

/-! ## Reference counts -/

/-- The references of the process to the buffer: one for the lock, one while it waits for the lock
or is in the rest of `brelse`. -/
def refs (s : Bcache n) (b : Index) (p : Fin n) : ℕ :=
  (if (s.buf b).lock.pid = some p.val then 1 else 0) + if (s.pc p).ref = some b then 1 else 0

/-- `refcnt` is the number of references that the processes hold. -/
def Counted (s : Bcache n) : Prop := ∀ b, (s.buf b).refcnt = ∑ p, refs s b p

namespace Counted

/-- A step of `p` that changes its references to `b` only. -/
theorem change (h : Counted s) (hpid : ∀ x, x ≠ b → (s'.buf x).lock.pid = (s.buf x).lock.pid)
    (hq : ∀ q : Fin n, q ≠ p →
      ((s'.buf b).lock.pid = some q.val ↔ (s.buf b).lock.pid = some q.val))
    (hpc : ∀ q, q ≠ p → s'.pc q = s.pc q)
    (href : ∀ x, x ≠ b → ((s'.pc p).ref = some x ↔ (s.pc p).ref = some x))
    (hcnt : ∀ x, x ≠ b → (s'.buf x).refcnt = (s.buf x).refcnt)
    (hb : (s'.buf b).refcnt + refs s b p = (s.buf b).refcnt + refs s' b p) : Counted s' := by
  intro x
  by_cases hx : x = b
  · subst hx
    have hsum := sum_change (Finset.mem_univ p) (f := fun q => refs s x q) (g := fun q => refs s' x q)
      fun q _ hne => by
        unfold refs
        rw [hpc q hne]
        simp only [hq q hne]
    have := h x
    omega
  · rw [hcnt x hx, h x]
    refine Finset.sum_congr rfl fun q _ => ?_
    unfold refs
    rw [hpid x hx]
    by_cases hqp : q = p
    · subst hqp
      simp only [href x hx]
    · rw [hpc q hqp]

theorem congr (h : Counted s) (hpid : ∀ x, (s'.buf x).lock.pid = (s.buf x).lock.pid)
    (hcnt : ∀ x, (s'.buf x).refcnt = (s.buf x).refcnt) (hpc : ∀ q, (s'.pc q).ref = (s.pc q).ref) :
    Counted s' := by
  intro x
  rw [hcnt x, h x]
  refine Finset.sum_congr rfl fun q _ => ?_
  unfold refs
  rw [hpid x, hpc q]

theorem free (h : Counted s) (hb : (s.buf b).refcnt = 0) (p : Fin n) :
    (s.buf b).lock.pid ≠ some p.val ∧ (s.pc p).ref ≠ some b := by
  rw [h b, Finset.sum_eq_zero_iff] at hb
  have := hb p (Finset.mem_univ p)
  unfold refs at this
  refine ⟨fun hl => ?_, fun hr => ?_⟩
  · rw [if_pos hl] at this
    omega
  · rw [if_pos hr] at this
    omega

end Counted

theorem bcacheStart_counted (disk : Disk) : Counted (bcacheStart n disk) := fun _ =>
  (Finset.sum_eq_zero fun _ _ => rfl).symm

/-! ## Flags, locks and data -/

/-- Every valid buffer has the latest data of its block, and every block whose latest data is not on
the disk has a buffer that is dirty or in the hands of a process. -/
structure Coherent (s : Bcache n) : Prop where
  unique : ∀ b b', (s.buf b).dev = ROOTDEV → (s.buf b').dev = ROOTDEV →
    (s.buf b).blockno = (s.buf b').blockno → b = b'
  locked : ∀ b, (s.buf b).lock.locked = (s.buf b).lock.pid.isSome
  dev : ∀ b, (s.buf b).lock.locked = true → (s.buf b).dev = ROOTDEV
  asked : ∀ p b k, (s.pc p).asked = some (b, k) → (s.buf b).dev = ROOTDEV ∧ (s.buf b).blockno = k
  busy : ∀ p b, (s.pc p).io = some b → (s.buf b).lock.pid = some p.val
  held : ∀ p b, (s.buf b).lock.pid = some p.val → (s.buf b).valid = true ∨ (s.pc p).io = some b
  queued : ∀ b, s.queued b = true → (∃ p, (s.pc p).io = some b) ∧ s.unwritten b = false ∧
    ((s.buf b).dirty = true ∨ (s.buf b).valid = false)
  dirty : ∀ b, (s.buf b).dirty = true → (s.buf b).valid = true
  unwritten : ∀ b, s.unwritten b = true → (s.buf b).valid = true ∧
    ∃ p : Fin n, (s.buf b).lock.pid = some p.val
  data : ∀ b, (s.buf b).valid = true →
    (s.buf b).dev = ROOTDEV ∧ (s.buf b).data = s.latest (s.buf b).blockno
  disk : ∀ k, s.disk k = s.latest k ∨ ∃ b, (s.buf b).valid = true ∧ (s.buf b).blockno = k ∧
    ((s.buf b).dirty = true ∨ s.unwritten b = true)

theorem bcacheStart_coherent (disk : Disk) : Coherent (bcacheStart n disk) := by
  refine ⟨fun b b' h => ?_, fun _ => rfl, fun b h => ?_, fun p b k h => ?_, fun p b h => ?_,
    fun p b h => ?_, fun b h => ?_, fun b h => ?_, fun b h => ?_, fun b h => ?_, fun k => .inl rfl⟩
  · cases h
  · cases h
  · cases h
  · cases h
  · cases h
  · cases h
  · cases h
  · cases h
  · cases h

namespace Coherent

/-- The reference count may change, and a process that is not in `iderw` may go on elsewhere. -/
theorem goto (h : Coherent s) (hio : (s.pc p).io = none) (hpc : pc.io = none)
    (hask : ∀ b k, pc.asked = some (b, k) → (s.buf b).dev = ROOTDEV ∧ (s.buf b).blockno = k) :
    Coherent (s.goto p pc) := by
  refine ⟨h.unique, h.locked, h.dev, fun q b k hq => ?_, fun q b hq => ?_, fun q b hq => ?_,
    fun b hb => ?_, h.dirty, h.unwritten, h.data, h.disk⟩
  · by_cases hqp : q = p
    · subst hqp
      rw [Bcache.goto_self] at hq
      exact hask b k hq
    · rw [Bcache.goto_of_ne hqp] at hq
      exact h.asked q b k hq
  · by_cases hqp : q = p
    · subst hqp
      rw [Bcache.goto_self, hpc] at hq
      cases hq
    · rw [Bcache.goto_of_ne hqp] at hq
      exact h.busy q b hq
  · rcases h.held q b hq with hv | hv
    · exact .inl hv
    · have hqp : q ≠ p := by
        rintro rfl
        rw [hio] at hv
        cases hv
      rw [Bcache.goto_of_ne hqp]
      exact .inr hv
  · obtain ⟨⟨q, hq⟩, hrest⟩ := h.queued b hb
    have hqp : q ≠ p := by
      rintro rfl
      rw [hio] at hq
      cases hq
    exact ⟨⟨q, by rw [Bcache.goto_of_ne hqp]; exact hq⟩, hrest⟩

/-- Only the reference count of a buffer changes. -/
theorem refcnt (h : Coherent s) (b : Index) (m : Buf → ℕ) :
    Coherent (s.setBuf b fun r => { r with refcnt := m r }) := by
  have hb : ∀ x, (s.setBuf b fun r => { r with refcnt := m r }).buf x =
      { s.buf x with refcnt := if x = b then m (s.buf b) else (s.buf x).refcnt } := by
    intro x
    by_cases hx : x = b
    · subst hx
      simp
    · rw [Bcache.setBuf_of_ne hx, if_neg hx]
  generalize ht : (s.setBuf b fun r => { r with refcnt := m r }) = t at hb
  have hpc : t.pc = s.pc := by rw [← ht, Bcache.setBuf_pc]
  have hq : t.queued = s.queued := by rw [← ht, Bcache.setBuf_queued]
  have hu : t.unwritten = s.unwritten := by rw [← ht, Bcache.setBuf_unwritten]
  have hl : t.latest = s.latest := by rw [← ht, Bcache.setBuf_latest]
  have hd : t.disk = s.disk := by rw [← ht, Bcache.setBuf_disk]
  refine ⟨?_, ?_, ?_, ?_, ?_, ?_, ?_, ?_, ?_, ?_, ?_⟩
  · simpa only [hb] using h.unique
  · simpa only [hb] using h.locked
  · simpa only [hb] using h.dev
  · simpa only [hb, hpc] using h.asked
  · simpa only [hb, hpc] using h.busy
  · simpa only [hb, hpc] using h.held
  · simpa only [hb, hpc, hq, hu] using h.queued
  · simpa only [hb] using h.dirty
  · simpa only [hb, hu] using h.unwritten
  · simpa only [hb, hl] using h.data
  · simpa only [hb, hl, hd, hu] using h.disk

theorem uses (h : Coherent s) (hu : s.Uses p b) :
    (s.buf b).valid = true ∧ s.queued b = false ∧ (s.buf b).dev = ROOTDEV := by
  have hio : (s.pc p).io = none := by rw [hu.1]; rfl
  have hv : (s.buf b).valid = true := by
    refine (h.held p b hu.2).resolve_right fun hb => ?_
    rw [hio] at hb
    cases hb
  refine ⟨hv, ?_, (h.data b hv).1⟩
  by_contra hq
  obtain ⟨⟨q, hq⟩, -⟩ := h.queued b (by simpa using hq)
  have hqp : q.val = p.val := Option.some.inj ((h.busy q b hq).symm.trans hu.2)
  rw [Fin.ext hqp, hio] at hq
  cases hq

/-- **Recycling** a buffer that nobody uses and that is not dirty. -/
theorem reuse (h : Coherent s) {k : ℕ} (hfree : ∀ p : Fin n, (s.buf b).lock.pid ≠ some p.val ∧
    (s.pc p).ref ≠ some b) (hdirty : (s.buf b).dirty = false)
    (hnone : ∀ x, ¬ ((s.buf x).dev = ROOTDEV ∧ (s.buf x).blockno = k)) :
    Coherent (s.setBuf b fun r => { r with
      dev := ROOTDEV, blockno := k, valid := false, dirty := false, refcnt := 1 }) := by
  have hunw : s.unwritten b = false := by
    by_contra hu
    obtain ⟨-, p, hp⟩ := h.unwritten b (by simpa using hu)
    exact (hfree p).1 hp
  have hask : ∀ p x k, (s.pc p).asked = some (x, k) → x ≠ b := by
    rintro p x k hp rfl
    cases hpc : s.pc p with
    | waiting y j =>
      rw [hpc] at hp
      obtain ⟨rfl, -⟩ := Prod.mk.inj (Option.some.inj hp)
      exact (hfree p).2 (by rw [hpc]; rfl)
    | reading y j =>
      rw [hpc] at hp
      obtain ⟨rfl, -⟩ := Prod.mk.inj (Option.some.inj hp)
      exact (hfree p).1 (h.busy p y (by rw [hpc]; rfl))
    | running => rw [hpc] at hp; cases hp
    | writing y => rw [hpc] at hp; cases hp
    | releasing y => rw [hpc] at hp; cases hp
  refine ⟨fun x y hx hy hxy => ?_, fun x => ?_, fun x hx => ?_, fun p x j hp => ?_,
    fun p x hp => ?_, fun p x hp => ?_, fun x hx => ?_, fun x hx => ?_, fun x hx => ?_,
    fun x hx => ?_, fun j => ?_⟩
  · by_cases hxb : x = b <;> by_cases hyb : y = b
    · rw [hxb, hyb]
    · subst hxb
      rw [Bcache.setBuf_self, Bcache.setBuf_of_ne hyb] at hxy
      rw [Bcache.setBuf_of_ne hyb] at hy
      exact absurd ⟨hy, hxy.symm⟩ (hnone y)
    · subst hyb
      rw [Bcache.setBuf_self, Bcache.setBuf_of_ne hxb] at hxy
      rw [Bcache.setBuf_of_ne hxb] at hx
      exact absurd ⟨hx, hxy⟩ (hnone x)
    · rw [Bcache.setBuf_of_ne hxb] at hx hxy
      rw [Bcache.setBuf_of_ne hyb] at hy hxy
      exact h.unique x y hx hy hxy
  · by_cases hxb : x = b
    · subst hxb
      rw [Bcache.setBuf_self]
      exact h.locked x
    · rw [Bcache.setBuf_of_ne hxb]
      exact h.locked x
  · by_cases hxb : x = b
    · subst hxb
      rw [Bcache.setBuf_self]
    · rw [Bcache.setBuf_of_ne hxb] at hx ⊢
      exact h.dev x hx
  · rw [Bcache.setBuf_of_ne (hask p x j hp)]
    exact h.asked p x j hp
  · have hb := h.busy p x hp
    have hxb : x ≠ b := by
      rintro rfl
      exact (hfree p).1 hb
    rwa [Bcache.setBuf_of_ne hxb]
  · have hxb : x ≠ b := by
      rintro rfl
      rw [Bcache.setBuf_self] at hp
      exact (hfree p).1 hp
    rw [Bcache.setBuf_of_ne hxb] at hp ⊢
    exact h.held p x hp
  · obtain ⟨⟨p, hp⟩, hrest⟩ := h.queued x hx
    have hxb : x ≠ b := by
      rintro rfl
      exact (hfree p).1 (h.busy p x hp)
    rw [Bcache.setBuf_of_ne hxb]
    exact ⟨⟨p, hp⟩, hrest⟩
  · by_cases hxb : x = b
    · subst hxb
      rw [Bcache.setBuf_self] at hx
      cases hx
    · rw [Bcache.setBuf_of_ne hxb] at hx ⊢
      exact h.dirty x hx
  · have hxb : x ≠ b := by
      rintro rfl
      rw [Bcache.setBuf_unwritten, hunw] at hx
      cases hx
    rw [Bcache.setBuf_of_ne hxb]
    exact h.unwritten x hx
  · by_cases hxb : x = b
    · subst hxb
      rw [Bcache.setBuf_self] at hx
      cases hx
    · rw [Bcache.setBuf_of_ne hxb] at hx ⊢
      exact h.data x hx
  · refine (h.disk j).imp id ?_
    rintro ⟨x, hv, hj, hd⟩
    have hxb : x ≠ b := by
      rintro rfl
      rw [hdirty, hunw] at hd
      simp at hd
    exact ⟨x, by rwa [Bcache.setBuf_of_ne hxb], by rwa [Bcache.setBuf_of_ne hxb],
      by rwa [Bcache.setBuf_of_ne hxb]⟩

end Coherent

/-- The steps of `p` at the buffer `b` leave everything else alone. -/
structure Local (s t : Bcache n) (p : Fin n) (b : Index) : Prop where
  buf : ∀ x, x ≠ b → t.buf x = s.buf x
  name : (t.buf b).dev = (s.buf b).dev ∧ (t.buf b).blockno = (s.buf b).blockno
  pc : ∀ q, q ≠ p → t.pc q = s.pc q
  asked : ∀ x k, (t.pc p).asked = some (x, k) → (s.pc p).asked = some (x, k)
  io : ∀ x, x ≠ b → ((t.pc p).io = some x ↔ (s.pc p).io = some x)
  marks : ∀ x, x ≠ b → t.queued x = s.queued x ∧ t.unwritten x = s.unwritten x
  blocks : ∀ k, k ≠ (s.buf b).blockno → t.latest k = s.latest k ∧ t.disk k = s.disk k

/-- What `Coherent` says about the buffer `b`. -/
structure BufOk (s : Bcache n) (b : Index) : Prop where
  locked : (s.buf b).lock.locked = (s.buf b).lock.pid.isSome
  busy : ∀ p, (s.pc p).io = some b → (s.buf b).lock.pid = some p.val
  held : ∀ p : Fin n, (s.buf b).lock.pid = some p.val →
    (s.buf b).valid = true ∨ (s.pc p).io = some b
  queued : s.queued b = true → (∃ p, (s.pc p).io = some b) ∧ s.unwritten b = false ∧
    ((s.buf b).dirty = true ∨ (s.buf b).valid = false)
  dirty : (s.buf b).dirty = true → (s.buf b).valid = true
  unwritten : s.unwritten b = true → (s.buf b).valid = true ∧
    ∃ p : Fin n, (s.buf b).lock.pid = some p.val
  data : (s.buf b).valid = true → (s.buf b).data = s.latest (s.buf b).blockno
  disk : s.disk (s.buf b).blockno = s.latest (s.buf b).blockno ∨ (s.buf b).valid = true ∧
    ((s.buf b).dirty = true ∨ s.unwritten b = true)

namespace Coherent

theorem bufOk (h : Coherent s) (hdev : (s.buf b).dev = ROOTDEV) : BufOk s b := by
  refine ⟨h.locked b, fun p => h.busy p b, fun p => h.held p b, h.queued b, h.dirty b,
    h.unwritten b, fun hv => (h.data b hv).2, (h.disk _).imp id ?_⟩
  rintro ⟨x, hv, hx, hd⟩
  obtain rfl := h.unique x b (h.data x hv).1 hdev hx
  exact ⟨hv, hd⟩

/-- **A step at one buffer.** -/
theorem at_buf {t : Bcache n} (h : Coherent s) (hl : Local s t p b)
    (hdev : (s.buf b).dev = ROOTDEV) (hb : BufOk t b) : Coherent t := by
  have hname : ∀ x, (t.buf x).dev = (s.buf x).dev ∧ (t.buf x).blockno = (s.buf x).blockno := by
    intro x
    by_cases hx : x = b
    · exact hx ▸ hl.name
    · rw [hl.buf x hx]
      exact ⟨rfl, rfl⟩
  have hio : ∀ q x, x ≠ b → ((t.pc q).io = some x ↔ (s.pc q).io = some x) := by
    intro q x hx
    by_cases hq : q = p
    · exact hq ▸ hl.io x hx
    · rw [hl.pc q hq]
  have hother : ∀ x, x ≠ b → (s.buf x).valid = true → (s.buf x).blockno ≠ (s.buf b).blockno :=
    fun x hx hv he => hx (h.unique x b (h.data x hv).1 hdev he)
  refine ⟨fun x y hx hy hxy => ?_, fun x => ?_, fun x hx => ?_, fun q x k hq => ?_,
    fun q x hq => ?_, fun q x hq => ?_, fun x hx => ?_, fun x hx => ?_, fun x hx => ?_,
    fun x hx => ?_, fun k => ?_⟩
  · rw [(hname x).1] at hx
    rw [(hname y).1] at hy
    rw [(hname x).2, (hname y).2] at hxy
    exact h.unique x y hx hy hxy
  · by_cases hxb : x = b
    · exact hxb ▸ hb.locked
    · rw [hl.buf x hxb]
      exact h.locked x
  · by_cases hxb : x = b
    · subst hxb
      exact hl.name.1.trans hdev
    · rw [hl.buf x hxb] at hx ⊢
      exact h.dev x hx
  · have hs : (s.pc q).asked = some (x, k) := by
      by_cases hqp : q = p
      · subst hqp
        exact hl.asked x k hq
      · rwa [hl.pc q hqp] at hq
    rw [(hname x).1, (hname x).2]
    exact h.asked q x k hs
  · by_cases hxb : x = b
    · subst hxb
      exact hb.busy q hq
    · rw [hl.buf x hxb]
      exact h.busy q x ((hio q x hxb).mp hq)
  · by_cases hxb : x = b
    · subst hxb
      exact hb.held q hq
    · rw [hl.buf x hxb] at hq ⊢
      rw [hio q x hxb]
      exact h.held q x hq
  · by_cases hxb : x = b
    · subst hxb
      exact hb.queued hx
    · rw [(hl.marks x hxb).1] at hx
      obtain ⟨⟨q, hq⟩, hrest⟩ := h.queued x hx
      rw [hl.buf x hxb, (hl.marks x hxb).2]
      exact ⟨⟨q, (hio q x hxb).mpr hq⟩, hrest⟩
  · by_cases hxb : x = b
    · subst hxb
      exact hb.dirty hx
    · rw [hl.buf x hxb] at hx ⊢
      exact h.dirty x hx
  · by_cases hxb : x = b
    · subst hxb
      exact hb.unwritten hx
    · rw [(hl.marks x hxb).2] at hx
      rw [hl.buf x hxb]
      exact h.unwritten x hx
  · by_cases hxb : x = b
    · subst hxb
      exact ⟨hl.name.1.trans hdev, hb.data hx⟩
    · rw [hl.buf x hxb] at hx ⊢
      rw [(hl.blocks _ (hother x hxb hx)).1]
      exact h.data x hx
  · by_cases hk : k = (s.buf b).blockno
    · rw [← hl.name.2] at hk
      rw [hk]
      exact hb.disk.imp id fun hd => ⟨b, hd.1, rfl, hd.2⟩
    · rw [(hl.blocks k hk).1, (hl.blocks k hk).2]
      refine (h.disk k).imp id ?_
      rintro ⟨x, hv, hx, hd⟩
      have hxb : x ≠ b := by
        rintro rfl
        exact hk hx.symm
      exact ⟨x, by rwa [hl.buf x hxb], by rwa [hl.buf x hxb],
        by rwa [hl.buf x hxb, (hl.marks x hxb).2]⟩

/-- A process that waited takes the lock; the buffer is valid. -/
theorem take (h : Coherent s) {k : ℕ} (hpc : s.pc p = .waiting b k)
    (hl : (s.buf b).lock.locked = false) (hv : (s.buf b).valid = true) :
    Coherent ((s.setBuf b fun r => { r with lock := ⟨true, some p.val⟩ }).goto p .running) := by
  have hb := h.bufOk (h.asked p b k (by rw [hpc]; rfl)).1
  have hnone : (s.buf b).lock.pid = none := by
    have := hb.locked
    rw [hl] at this
    simpa using this.symm
  have hbusy : ∀ q, (s.pc q).io ≠ some b := fun q hq => by
    have := hb.busy q hq
    rw [hnone] at this
    cases this
  refine h.at_buf (p := p) (b := b) ⟨fun x hx => ?_, ?_, fun q hq => ?_, fun x j hj => ?_,
    fun x hx => ?_, fun x _ => ⟨rfl, rfl⟩, fun j _ => ⟨rfl, rfl⟩⟩
    (h.asked p b k (by rw [hpc]; rfl)).1 ⟨?_, fun q hq => ?_, fun q hq => .inl ?_, fun hq => ?_, ?_,
      fun hu => ?_, ?_, ?_⟩
  · rw [Bcache.goto_buf, Bcache.setBuf_of_ne hx]
  · simp
  · rw [Bcache.goto_of_ne hq, Bcache.setBuf_pc]
  · rw [Bcache.goto_self] at hj
    cases hj
  · rw [Bcache.goto_self, hpc]
    exact Iff.rfl
  · simp
  · by_cases hqp : q = p
    · subst hqp
      simp
    · rw [Bcache.goto_of_ne hqp] at hq
      exact absurd hq (hbusy q)
  · simpa using hv
  · obtain ⟨⟨q, hq⟩, -⟩ := hb.queued (by simpa using hq)
    exact absurd hq (hbusy q)
  · simpa using hb.dirty
  · obtain ⟨-, q, hq⟩ := hb.unwritten (by simpa using hu)
    rw [hnone] at hq
    cases hq
  · simpa using hb.data
  · simpa using hb.disk

/-- A process that waited takes the lock; the buffer has to be read. -/
theorem takeRead (h : Coherent s) {k : ℕ} (hpc : s.pc p = .waiting b k)
    (hl : (s.buf b).lock.locked = false) (hv : (s.buf b).valid = false) :
    Coherent ({ s.setBuf b fun r => { r with lock := ⟨true, some p.val⟩ } with
      queued := Function.update s.queued b true }.goto p (.reading b k)) := by
  have hask : (s.pc p).asked = some (b, k) := by rw [hpc]; rfl
  have hb := h.bufOk (h.asked p b k hask).1
  have hnone : (s.buf b).lock.pid = none := by
    have := hb.locked
    rw [hl] at this
    simpa using this.symm
  have hdirty : (s.buf b).dirty = false := by
    by_contra hd
    rw [hb.dirty (by simpa using hd)] at hv
    cases hv
  have hunw : s.unwritten b = false := by
    by_contra hu
    rw [(hb.unwritten (by simpa using hu)).1] at hv
    cases hv
  refine h.at_buf (p := p) (b := b) ⟨fun x hx => ?_, ?_, fun q hq => ?_, fun x j hj => ?_,
    fun x hx => ?_, fun x hx => ⟨?_, rfl⟩, fun j _ => ⟨rfl, rfl⟩⟩ (h.asked p b k hask).1
    ⟨?_, fun q hq => ?_, fun q hq => .inr ?_, fun _ => ⟨⟨p, ?_⟩, hunw, .inr ?_⟩, fun hd => ?_,
      fun hu => ?_, fun hv' => ?_, .inl ?_⟩
  · rw [Bcache.goto_buf, Bcache.setBuf_of_ne hx]
  · simp
  · rw [Bcache.goto_of_ne hq, Bcache.setBuf_pc]
  · rw [Bcache.goto_self] at hj
    rwa [hask]
  · rw [Bcache.goto_self, hpc]
    simp [BufPc.io, Ne.symm hx]
  · exact Function.update_of_ne hx _ _
  · simp
  · by_cases hqp : q = p
    · subst hqp
      simp
    · rw [Bcache.goto_of_ne hqp] at hq
      have := hb.busy q hq
      rw [hnone] at this
      cases this
  · have hqp : p = q := Fin.ext (by simpa using hq)
    rw [← hqp, Bcache.goto_self]
    rfl
  · rw [Bcache.goto_self]
    rfl
  · simpa using hv
  · simp [hdirty] at hd
  · have hu : s.unwritten b = true := hu
    rw [hunw] at hu
    cases hu
  · simp [hv] at hv'
  · refine hb.disk.resolve_right ?_ |> fun hd => by simpa using hd
    rintro ⟨hv', -⟩
    rw [hv] at hv'
    cases hv'

/-- **The disk finishes a request**: the block is read, or written. -/
theorem ideintr (h : Coherent s) (hq : s.queued b = true) : Coherent (ideintr b s) := by
  obtain ⟨⟨p, hp⟩, hunw, hflags⟩ := h.queued b hq
  have hdev : (s.buf b).dev = ROOTDEV := by
    refine h.dev b ?_
    rw [h.locked b, h.busy p b hp]
    rfl
  have hb := h.bufOk hdev
  refine h.at_buf (p := p) (b := b) ⟨fun x hx => ?_, ?_, fun q _ => rfl, fun x j hj => hj,
    fun x _ => Iff.rfl, fun x hx => ⟨?_, rfl⟩, fun j hj => ⟨rfl, ?_⟩⟩ hdev
    ⟨?_, fun q hq => ?_, fun q _ => .inl ?_, fun hq => ?_, fun hd => ?_, fun hu => ?_,
      fun _ => ?_, .inl ?_⟩
  · simp [Bio.ideintr, Bcache.setBuf_of_ne hx]
  · simp [Bio.ideintr]
  · simp [Bio.ideintr, Function.update_of_ne hx]
  · simp only [Bio.ideintr]
    split_ifs
    · exact Function.update_of_ne hj _ _
    · rfl
  · simpa [Bio.ideintr] using hb.locked
  · simpa [Bio.ideintr] using hb.busy q hq
  · simp [Bio.ideintr]
  · simp [Bio.ideintr] at hq
  · simp [Bio.ideintr] at hd
  · have hu : s.unwritten b = true := hu
    rw [hunw] at hu
    cases hu
  · -- a read finds the latest data on the disk, since no other buffer has the block
    simp only [Bio.ideintr, Bcache.setBuf_self]
    split_ifs with hd
    · exact hb.data (hb.dirty hd)
    · refine hb.disk.resolve_right ?_
      rintro ⟨hv, -⟩
      rw [hflags.resolve_left hd] at hv
      cases hv
  · simp only [Bio.ideintr, Bcache.setBuf_self]
    split_ifs with hd
    · rw [Function.update_self]
      exact hb.data (hb.dirty hd)
    · refine hb.disk.resolve_right ?_
      rintro ⟨hv, -⟩
      rw [hflags.resolve_left hd] at hv
      cases hv

/-- A process goes on from `iderw`. -/
theorem finish (h : Coherent s) (hp : (s.pc p).io = some b) (hv : (s.buf b).valid = true)
    (hd : (s.buf b).dirty = false) : Coherent (s.goto p .running) := by
  have hpid := h.busy p b hp
  have hdev : (s.buf b).dev = ROOTDEV := (h.data b hv).1
  have hb := h.bufOk hdev
  refine h.at_buf (p := p) (b := b) ⟨fun x hx => rfl, ⟨rfl, rfl⟩, fun q hq => ?_,
    fun x j hj => ?_, fun x hx => ?_, fun x _ => ⟨rfl, rfl⟩, fun j _ => ⟨rfl, rfl⟩⟩ hdev
    ⟨hb.locked, fun q hq => ?_, fun q _ => .inl hv, fun hq => ?_, hb.dirty, hb.unwritten, hb.data,
      hb.disk⟩
  · exact Bcache.goto_of_ne hq
  · rw [Bcache.goto_self] at hj
    cases hj
  · rw [Bcache.goto_self, hp]
    simp [BufPc.io, Ne.symm hx]
  · by_cases hqp : q = p
    · subst hqp
      exact hpid
    · rw [Bcache.goto_of_ne hqp] at hq
      exact hb.busy q hq
  · obtain ⟨-, -, hf⟩ := hb.queued hq
    rw [hd, hv] at hf
    simp at hf

/-- A process changes the data of a buffer it uses. -/
theorem modify (h : Coherent s) (hu : s.Uses p b) (data : Block) :
    Coherent { s.setBuf b fun r => { r with data := data } with
      latest := Function.update s.latest (s.buf b).blockno data
      unwritten := Function.update s.unwritten b true } := by
  obtain ⟨hv, hq, hdev⟩ := h.uses hu
  have hb := h.bufOk hdev
  refine h.at_buf (p := p) (b := b) ⟨fun x hx => ?_, ?_, fun q _ => rfl, fun x j hj => hj,
    fun x _ => Iff.rfl, fun x hx => ⟨rfl, ?_⟩, fun j hj => ⟨?_, rfl⟩⟩ hdev
    ⟨?_, fun q hq => ?_, fun q _ => .inl ?_, fun hq' => ?_, fun hd => ?_, fun _ => ⟨?_, p, ?_⟩,
      fun _ => ?_, .inr ⟨?_, .inr ?_⟩⟩
  · simp [Bcache.setBuf_of_ne hx]
  · simp
  · exact Function.update_of_ne hx _ _
  · exact Function.update_of_ne hj _ _
  · simpa using hb.locked
  · simpa using hb.busy q hq
  · simpa using hv
  · have hq' : s.queued b = true := hq'
    rw [hq] at hq'
    cases hq'
  · simpa using hv
  · simpa using hv
  · simpa using hu.2
  · simp
  · simpa using hv
  · simp

/-- `log_write`, which makes the buffer dirty. -/
theorem log_write (h : Coherent s) (hu : s.Uses p b) : Coherent (log_write b s) := by
  obtain ⟨hv, hq, hdev⟩ := h.uses hu
  have hb := h.bufOk hdev
  refine h.at_buf (p := p) (b := b) ⟨fun x hx => ?_, ?_, fun q _ => rfl, fun x j hj => hj,
    fun x _ => Iff.rfl, fun x hx => ⟨rfl, ?_⟩, fun j hj => ⟨rfl, rfl⟩⟩ hdev
    ⟨?_, fun q hq => ?_, fun q _ => .inl ?_, fun hq' => ?_, fun _ => ?_, fun hu' => ?_, ?_,
      .inr ⟨?_, .inl ?_⟩⟩
  · simp [Bio.log_write, Bcache.setBuf_of_ne hx]
  · simp [Bio.log_write]
  · exact Function.update_of_ne hx _ _
  · simpa [Bio.log_write] using hb.locked
  · simpa [Bio.log_write] using hb.busy q hq
  · simpa [Bio.log_write] using hv
  · have hq' : s.queued b = true := hq'
    rw [hq] at hq'
    cases hq'
  · simpa [Bio.log_write] using hv
  · simp [Bio.log_write] at hu'
  · simpa [Bio.log_write] using hb.data
  · simpa [Bio.log_write] using hv
  · simp [Bio.log_write]

/-- `bwrite`, which queues the buffer for the disk. -/
theorem bwrite (h : Coherent s) (hu : s.Uses p b) (hs : bwrite p b s = some s') : Coherent s' := by
  obtain ⟨hv, hq, hdev⟩ := h.uses hu
  have hb := h.bufOk hdev
  have hl : (s.buf b).lock.locked = true := by rw [hb.locked, hu.2]; rfl
  have hs' : { s.setBuf b (fun r => { r with dirty := true }) with
      queued := Function.update s.queued b true
      unwritten := Function.update s.unwritten b false }.goto p (.writing b) = s' := by
    simpa [Bio.bwrite, Bio.iderw, holdingsleep, hl] using hs
  subst hs'
  have hio : (s.pc p).io = none := by rw [hu.1]; rfl
  refine h.at_buf (p := p) (b := b) ⟨fun x hx => ?_, ?_, fun q hq => ?_, fun x j hj => ?_,
    fun x hx => ?_, fun x hx => ⟨?_, ?_⟩, fun j hj => ⟨rfl, rfl⟩⟩ hdev
    ⟨?_, fun q hq => ?_, fun q _ => .inl ?_, fun _ => ⟨⟨p, ?_⟩, ?_, .inl ?_⟩, fun _ => ?_,
      fun hu' => ?_, ?_, .inr ⟨?_, .inl ?_⟩⟩
  · rw [Bcache.goto_buf, Bcache.setBuf_of_ne hx]
  · simp
  · rw [Bcache.goto_of_ne hq, Bcache.setBuf_pc]
  · rw [Bcache.goto_self] at hj
    cases hj
  · rw [Bcache.goto_self, hio]
    simp [BufPc.io, Ne.symm hx]
  · exact Function.update_of_ne hx _ _
  · exact Function.update_of_ne hx _ _
  · simpa using hb.locked
  · by_cases hqp : q = p
    · subst hqp
      simpa using hu.2
    · rw [Bcache.goto_of_ne hqp] at hq
      simpa using hb.busy q hq
  · simpa using hv
  · rw [Bcache.goto_self]
    rfl
  · simp
  · simp
  · simpa using hv
  · simp at hu'
  · simpa using hb.data
  · simpa using hv
  · simp

/-- `brelse` up to the end of `releasesleep`. -/
theorem brelse (h : Coherent s) (hu : s.Uses p b) (hw : s.unwritten b = false) :
    Coherent ((s.setBuf b fun r => { r with lock := ⟨false, none⟩ }).goto p (.releasing b)) := by
  obtain ⟨hv, hq, hdev⟩ := h.uses hu
  have hb := h.bufOk hdev
  have hio : (s.pc p).io = none := by rw [hu.1]; rfl
  refine h.at_buf (p := p) (b := b) ⟨fun x hx => ?_, ?_, fun q hq => ?_, fun x j hj => ?_,
    fun x hx => ?_, fun x hx => ⟨rfl, rfl⟩, fun j hj => ⟨rfl, rfl⟩⟩ hdev
    ⟨?_, fun q hq => ?_, fun q _ => .inl ?_, fun hq' => ?_, ?_, fun hu' => ?_, ?_, ?_⟩
  · rw [Bcache.goto_buf, Bcache.setBuf_of_ne hx]
  · simp
  · rw [Bcache.goto_of_ne hq, Bcache.setBuf_pc]
  · rw [Bcache.goto_self] at hj
    cases hj
  · rw [Bcache.goto_self, hio]
    simp [BufPc.io]
  · simp
  · -- only the owner, which is `p`, could be in `iderw` for the buffer
    have hqp : q ≠ p := by
      rintro rfl
      rw [Bcache.goto_self] at hq
      cases hq
    rw [Bcache.goto_of_ne hqp] at hq
    have := (hb.busy q hq).symm.trans hu.2
    exact absurd (Fin.ext (Option.some.inj this)) hqp
  · simpa using hv
  · have hq' : s.queued b = true := hq'
    rw [hq] at hq'
    cases hq'
  · simpa using hb.dirty
  · have hu' : s.unwritten b = true := hu'
    rw [hw] at hu'
    cases hu'
  · simpa using hb.data
  · simpa using hb.disk

end Coherent

/-! ## Runs -/

/-- The process has the buffer, or is in the rest of `brelse`. -/
def Bcache.Holds (s : Bcache n) (b : Index) (p : Fin n) : Prop :=
  (s.buf b).lock.pid = some p.val ∨ s.pc p = .releasing b

/-- The process waits for the buffer. -/
def Bcache.Waits (s : Bcache n) (b : Index) (p : Fin n) : Prop := (s.pc p).waits = some b

instance (s : Bcache n) (b : Index) : DecidablePred (s.Holds b) := fun _ => instDecidableOr

instance (s : Bcache n) (b : Index) : DecidablePred (s.Waits b) := fun _ =>
  inferInstanceAs (Decidable (_ = _))

/-- What the cache promises of every state. -/
structure Cached (s : Bcache n) : Prop where
  unique : ∀ b b', (s.buf b).dev = ROOTDEV → (s.buf b').dev = ROOTDEV →
    (s.buf b).blockno = (s.buf b').blockno → b = b'
  /-- `l` has each of the buffers once, and those released later come first. -/
  listed : ∃ l, s.links.Circle l ∧ (∀ b, b ∈ l) ∧ l.Pairwise fun a b => s.freed b < s.freed a
  refcnt : ∀ b, (s.buf b).refcnt = (Finset.univ.filter (s.Holds b)).card +
    (Finset.univ.filter (s.Waits b)).card

/-- What the cache promises of every step. -/
structure Careful (s : Bcache n) (_ : BufEvent n) (s' : Bcache n) : Prop where
  /-- Only an unused clean buffer is given to another block. -/
  reassigned : ∀ b, (s'.buf b).dev ≠ (s.buf b).dev ∨ (s'.buf b).blockno ≠ (s.buf b).blockno →
    (s.buf b).refcnt = 0 ∧ (s.buf b).dirty = false
  /-- `bread` returns a buffer with the latest data of the block, and the process has it. -/
  returns : ∀ p b k, (s.pc p).asked = some (b, k) → s'.pc p = .running →
    (s'.buf b).lock.pid = some p.val ∧ (s'.buf b).dev = ROOTDEV ∧ (s'.buf b).blockno = k ∧
      (s'.buf b).data = s'.latest k

/-- The invariant of the buffer cache. -/
structure BufInv (s : Bcache n) : Prop where
  listed : ∃ l, Listed s l
  counted : Counted s
  coherent : Coherent s
  /-- A process in the rest of `brelse` does not own the lock any more. -/
  left : ∀ p b, s.pc p = .releasing b → (s.buf b).lock.pid ≠ some p.val

theorem bcacheStart_inv (disk : Disk) : BufInv (bcacheStart n disk) := by
  refine ⟨⟨_, bcacheStart_listed disk⟩, bcacheStart_counted disk, bcacheStart_coherent disk,
    fun p b h => ?_⟩
  cases h

theorem BufInv.cached (h : BufInv s) : Cached s := by
  obtain ⟨l, hl⟩ := h.listed
  refine ⟨h.coherent.unique, ⟨l, hl.circle, hl.all, hl.order⟩, fun b => ?_⟩
  rw [h.counted b, Finset.card_filter, Finset.card_filter, ← Finset.sum_add_distrib]
  refine Finset.sum_congr rfl fun p _ => ?_
  have hleft := h.left p b
  unfold refs Bcache.Holds Bcache.Waits
  by_cases hr : s.pc p = .releasing b
  · simp [hr, hleft hr, BufPc.ref, BufPc.waits]
  · have href : (s.pc p).ref = some b ↔ (s.pc p).waits = some b := by
      cases hpc : s.pc p with
      | releasing x =>
        have hx : x ≠ b := fun hx => hr (by rw [hpc, hx])
        simp [BufPc.ref, BufPc.waits, hx]
      | _ => rfl
    simp only [hr, or_false, href]
    rfl

namespace BufInv

theorem keeps_left {t : Bcache n} (h : BufInv s)
    (hlock : ∀ x, (t.buf x).lock.pid = (s.buf x).lock.pid)
    (hpc : ∀ q x, t.pc q = .releasing x → s.pc q = .releasing x) :
    ∀ q x, t.pc q = .releasing x → (t.buf x).lock.pid ≠ some q.val := fun q x hq => by
  rw [hlock x]
  exact h.left q x (hpc q x hq)

theorem setBuf_lock (hf : (f (s.buf b)).lock = (s.buf b).lock) (x : Index) :
    ((s.setBuf b f).buf x).lock = (s.buf x).lock := by
  by_cases hx : x = b
  · subst hx
    rw [Bcache.setBuf_self, hf]
  · rw [Bcache.setBuf_of_ne hx]

theorem goto_releasing (hpc : ∀ x, pc ≠ .releasing x) (q : Fin n) (x : Index)
    (hq : (s.goto p pc).pc q = .releasing x) : s.pc q = .releasing x := by
  by_cases hqp : q = p
  · subst hqp
    rw [Bcache.goto_self] at hq
    exact absurd hq (hpc x)
  · rwa [Bcache.goto_of_ne hqp] at hq

/-- `p` gets one more reference to `b`, and waits for the lock. -/
theorem wait {k : ℕ} (h : BufInv s) (hpc : s.pc p = .running)
    (hf : (f (s.buf b)).lock = (s.buf b).lock) (hcnt : (f (s.buf b)).refcnt = (s.buf b).refcnt + 1)
    (hname : (f (s.buf b)).dev = ROOTDEV ∧ (f (s.buf b)).blockno = k)
    (hcoh : Coherent (s.setBuf b f)) : BufInv ((s.setBuf b f).goto p (.waiting b k)) := by
  obtain ⟨l, hl⟩ := h.listed
  have hio : (s.pc p).io = none := by rw [hpc]; rfl
  refine ⟨⟨l, hl.congr rfl rfl rfl⟩, ?_, hcoh.goto hio rfl fun x j hx => ?_, ?_⟩
  · refine h.counted.change (p := p) (b := b) (fun x hx => ?_) (fun q _ => ?_) (fun q hq => ?_)
      (fun x hx => ?_) (fun x hx => ?_) ?_
    · rw [Bcache.goto_buf, Bcache.setBuf_of_ne hx]
    · rw [Bcache.goto_buf, setBuf_lock hf]
    · rw [Bcache.goto_of_ne hq, Bcache.setBuf_pc]
    · rw [Bcache.goto_self, hpc]
      simp [BufPc.ref, Ne.symm hx]
    · rw [Bcache.goto_buf, Bcache.setBuf_of_ne hx]
    · simp [refs, hpc, BufPc.ref, hf, hcnt]
      omega
  · obtain ⟨rfl, rfl⟩ := Prod.mk.inj (Option.some.inj hx)
    simpa using hname
  · exact h.keeps_left (fun x => by rw [Bcache.goto_buf, setBuf_lock hf])
      (goto_releasing fun x hx => by cases hx)

/-- `bread` up to `acquiresleep`. -/
theorem bget {k : ℕ} (h : BufInv s) (hpc : s.pc p = .running) (hs : bget p k s = some s') :
    BufInv s' ∧ ∀ b, (s'.buf b).dev ≠ (s.buf b).dev ∨ (s'.buf b).blockno ≠ (s.buf b).blockno →
      (s.buf b).refcnt = 0 ∧ (s.buf b).dirty = false := by
  obtain ⟨l, hl⟩ := h.listed
  unfold Bio.bget at hs
  rcases hc : Bio.cached k s with _ | b
  · rw [hc] at hs
    obtain ⟨b, hr, rfl⟩ := Option.map_eq_some_iff.mp hs
    obtain ⟨hzero, hdirty⟩ := hl.recycled_some hr
    have hcoh := h.coherent.reuse (h.counted.free hzero) hdirty fun x => hl.cached_none hc x
    refine ⟨h.wait hpc rfl (by rw [hzero]) ⟨rfl, rfl⟩ hcoh, fun x hx => ?_⟩
    by_cases hxb : x = b
    · exact hxb ▸ ⟨hzero, hdirty⟩
    · rw [Bcache.goto_buf, Bcache.setBuf_of_ne hxb] at hx
      simp at hx
  · rw [hc] at hs
    obtain rfl := Option.some.inj hs
    refine ⟨h.wait hpc rfl rfl (hl.cached_some hc) (h.coherent.refcnt b _), fun x hx => ?_⟩
    by_cases hxb : x = b
    · subst hxb
      simp at hx
    · rw [Bcache.goto_buf, Bcache.setBuf_of_ne hxb] at hx
      simp at hx

/-- `p` goes from waiting for the lock to having it. -/
theorem locked {k : ℕ} (h : BufInv s) (hpc : s.pc p = .waiting b k)
    (hl : (s.buf b).lock.locked = false) (hs : locked p b k s = some s') :
    BufInv s' ∧ (∀ x, (s'.buf x).dev = (s.buf x).dev ∧ (s'.buf x).blockno = (s.buf x).blockno) ∧
      (s'.buf b).lock.pid = some p.val ∧ (s'.pc p = .running → (s'.buf b).valid = true) := by
  have hnone : (s.buf b).lock.pid = none := by
    have := h.coherent.locked b
    rw [hl] at this
    simpa using this.symm
  have hname : ∀ x, ((s.setBuf b fun r => { r with lock := ⟨true, some p.val⟩ }).buf x).dev =
      (s.buf x).dev ∧ ((s.setBuf b fun r => { r with lock := ⟨true, some p.val⟩ }).buf x).blockno =
        (s.buf x).blockno := by
    intro x
    by_cases hx : x = b
    · subst hx
      simp
    · rw [Bcache.setBuf_of_ne hx]
      exact ⟨rfl, rfl⟩
  -- the reference for waiting becomes the one for the lock
  have hcount : ∀ {t : Bcache n} {pc : BufPc}, pc.ref = none →
      t.buf = (s.setBuf b fun r => { r with lock := ⟨true, some p.val⟩ }).buf → t.pc = s.pc →
      Counted (t.goto p pc) := by
    intro t pc hpc' ht htpc
    refine h.counted.change (p := p) (b := b) (fun x hx => ?_) (fun q hq => ?_) (fun q hq => ?_)
      (fun x hx => ?_) (fun x hx => ?_) ?_
    · rw [Bcache.goto_buf, ht, Bcache.setBuf_of_ne hx]
    · rw [Bcache.goto_buf, ht, Bcache.setBuf_self, hnone]
      simpa using fun hv => hq (Fin.ext hv).symm
    · rw [Bcache.goto_of_ne hq, htpc]
    · rw [Bcache.goto_self, hpc, hpc']
      simp [BufPc.ref, Ne.symm hx]
    · rw [Bcache.goto_buf, ht, Bcache.setBuf_of_ne hx]
    · have href : (s.pc p).ref = some b := by rw [hpc]; rfl
      simp [refs, href, hpc', ht, hnone]
  have hleft : ∀ {t : Bcache n} {pc : BufPc}, (∀ x, pc ≠ .releasing x) →
      t.buf = (s.setBuf b fun r => { r with lock := ⟨true, some p.val⟩ }).buf → t.pc = s.pc →
      ∀ q x, (t.goto p pc).pc q = .releasing x → ((t.goto p pc).buf x).lock.pid ≠ some q.val := by
    intro t pc hpc' ht htpc q x hq
    have hq := goto_releasing hpc' q x hq
    rw [htpc] at hq
    rw [Bcache.goto_buf, ht]
    by_cases hx : x = b
    · subst hx
      rw [Bcache.setBuf_self]
      intro he
      have hqp : p = q := Fin.ext (Option.some.inj he)
      rw [← hqp, hpc] at hq
      cases hq
    · rw [Bcache.setBuf_of_ne hx]
      exact h.left q x hq
  obtain ⟨l, hlist⟩ := h.listed
  unfold Bio.locked at hs
  by_cases hv : (s.buf b).valid = true
  · simp only [Bcache.setBuf_self, hv, if_true] at hs
    obtain rfl := Option.some.inj hs
    refine ⟨⟨⟨l, hlist.congr rfl rfl rfl⟩, hcount rfl rfl rfl, h.coherent.take hpc hl hv,
      hleft (fun x hx => by cases hx) rfl rfl⟩, hname, ?_, fun _ => ?_⟩
    · simp
    · simpa using hv
  · have hv : (s.buf b).valid = false := by simpa using hv
    simp only [Bcache.setBuf_self, hv, Bio.iderw, holdingsleep, Bool.false_eq_true, if_false] at hs
    simp only [Bool.true_eq_false, false_and, or_self, if_false, Option.map_some] at hs
    obtain rfl := Option.some.inj hs
    refine ⟨⟨⟨l, hlist.congr rfl rfl rfl⟩, hcount rfl rfl rfl, h.coherent.takeRead hpc hl hv,
      hleft (fun x hx => by cases hx) rfl rfl⟩, hname, ?_, fun hr => ?_⟩
    · simp
    · simp at hr

/-- `brelse` up to the end of `releasesleep`. -/
theorem brelse (h : BufInv s) (hu : s.Uses p b) (hw : s.unwritten b = false) :
    BufInv ((s.setBuf b fun r => { r with lock := ⟨false, none⟩ }).goto p (.releasing b)) := by
  obtain ⟨l, hl⟩ := h.listed
  refine ⟨⟨l, hl.congr rfl rfl rfl⟩, ?_, h.coherent.brelse hu hw, fun q x hq => ?_⟩
  · refine h.counted.change (p := p) (b := b) (fun x hx => ?_) (fun q hq => ?_) (fun q hq => ?_)
      (fun x hx => ?_) (fun x hx => ?_) ?_
    · rw [Bcache.goto_buf, Bcache.setBuf_of_ne hx]
    · rw [Bcache.goto_buf, Bcache.setBuf_self, hu.2]
      simpa using fun hv => hq (Fin.ext hv).symm
    · rw [Bcache.goto_of_ne hq, Bcache.setBuf_pc]
    · rw [Bcache.goto_self, hu.1]
      simp [BufPc.ref, Ne.symm hx]
    · rw [Bcache.goto_buf, Bcache.setBuf_of_ne hx]
    · simp [refs, hu.1, hu.2, BufPc.ref]
  · by_cases hx : x = b
    · subst hx
      simp
    · rw [Bcache.goto_buf, Bcache.setBuf_of_ne hx]
      have hqp : q ≠ p := by
        rintro rfl
        rw [Bcache.goto_self] at hq
        exact hx (BufPc.releasing.inj hq).symm
      rw [Bcache.goto_of_ne hqp] at hq
      exact h.left q x hq

/-- The rest of `brelse`: a last reference puts the buffer at the front of the list. -/
theorem unref (h : BufInv s) (hpc : s.pc p = .releasing b) : BufInv (unref p b s) := by
  have hcnt := h.counted b
  have hone : 1 ≤ (s.buf b).refcnt := by
    rw [hcnt]
    have href : 1 ≤ refs s b p := by simp [refs, hpc, BufPc.ref]
    exact href.trans (Finset.single_le_sum (f := refs s b) (fun _ _ => Nat.zero_le _)
      (Finset.mem_univ p))
  have hio : (s.pc p).io = none := by rw [hpc]; rfl
  obtain ⟨l, hl⟩ := h.listed
  have hmain : ∀ {t : Bcache n}, t.buf = (s.setBuf b fun r => { r with refcnt := r.refcnt - 1 }).buf →
      t.pc = s.pc → (∃ l, Listed t l) → Coherent t → BufInv (t.goto p .running) := by
    intro t ht htpc hlist hcoh
    obtain ⟨l, hl⟩ := hlist
    refine ⟨⟨l, hl.congr rfl rfl rfl⟩, ?_, hcoh.goto (htpc ▸ hio) rfl fun x k hx => (by cases hx),
      ?_⟩
    · refine h.counted.change (p := p) (b := b) (fun x hx => ?_) (fun q _ => ?_) (fun q hq => ?_)
        (fun x hx => ?_) (fun x hx => ?_) ?_
      · rw [Bcache.goto_buf, ht, Bcache.setBuf_of_ne hx]
      · rw [Bcache.goto_buf, ht, setBuf_lock rfl]
      · rw [Bcache.goto_of_ne hq, htpc]
      · rw [Bcache.goto_self, hpc]
        simp [BufPc.ref, Ne.symm hx]
      · rw [Bcache.goto_buf, ht, Bcache.setBuf_of_ne hx]
      · simp [refs, hpc, BufPc.ref, ht]
        omega
    · refine h.keeps_left (fun x => by rw [Bcache.goto_buf, ht, setBuf_lock rfl]) fun q x hq => ?_
      rw [← htpc]
      exact goto_releasing (fun x hx => by cases hx) q x hq
  have hcoh := h.coherent.refcnt b fun r => r.refcnt - 1
  unfold Bio.unref
  dsimp only
  split_ifs
  · refine hmain rfl rfl ⟨b :: l.erase b, ?_⟩ ?_
    · exact Listed.release (s := s.setBuf b fun r => { r with refcnt := r.refcnt - 1 })
        (hl.congr rfl rfl rfl) b
    · exact ⟨hcoh.unique, hcoh.locked, hcoh.dev, hcoh.asked, hcoh.busy, hcoh.held, hcoh.queued,
        hcoh.dirty, hcoh.unwritten, hcoh.data, hcoh.disk⟩
  · exact hmain rfl rfl ⟨l, hl.congr rfl rfl rfl⟩ hcoh

theorem of_coherent {t : Bcache n} (h : BufInv s) (hcoh : Coherent t)
    (hbuf : ∀ x, (t.buf x).lock = (s.buf x).lock ∧ (t.buf x).refcnt = (s.buf x).refcnt)
    (hlist : t.links = s.links ∧ t.freed = s.freed ∧ t.clock = s.clock)
    (href : ∀ q, (t.pc q).ref = (s.pc q).ref)
    (hpc : ∀ q x, t.pc q = .releasing x → s.pc q = .releasing x) : BufInv t := by
  obtain ⟨l, hl⟩ := h.listed
  refine ⟨⟨l, hl.congr hlist.1 hlist.2.1 hlist.2.2⟩, h.counted.congr (fun x => by rw [(hbuf x).1])
    (fun x => (hbuf x).2) href, hcoh, h.keeps_left (fun x => by rw [(hbuf x).1]) hpc⟩

end BufInv

theorem careful_of {e : BufEvent n}
    (hname : ∀ x, (s'.buf x).dev = (s.buf x).dev ∧ (s'.buf x).blockno = (s.buf x).blockno)
    (hpc : ∀ q b k, (s.pc q).asked = some (b, k) → s'.pc q = s.pc q) : Careful s e s' := by
  refine ⟨fun x hx => ?_, fun q b k hq hr => ?_⟩
  · rw [(hname x).1, (hname x).2] at hx
    simp at hx
  · rw [hpc q b k hq] at hr
    rw [hr] at hq
    cases hq

theorem bufInv_at {e : BufEvent n} {t : Bcache n} (h : BufInv s) (hcoh : Coherent t)
    (hx : ∀ x, x ≠ b → t.buf x = s.buf x)
    (hb : (t.buf b).lock = (s.buf b).lock ∧ (t.buf b).refcnt = (s.buf b).refcnt ∧
      (t.buf b).dev = (s.buf b).dev ∧ (t.buf b).blockno = (s.buf b).blockno)
    (hlist : t.links = s.links ∧ t.freed = s.freed ∧ t.clock = s.clock)
    (href : ∀ q, (t.pc q).ref = (s.pc q).ref)
    (hpc : ∀ q x, t.pc q = .releasing x → s.pc q = .releasing x)
    (hask : ∀ q b k, (s.pc q).asked = some (b, k) → t.pc q = s.pc q) :
    BufInv t ∧ Careful s e t := by
  have hall : ∀ x, (t.buf x).lock = (s.buf x).lock ∧ (t.buf x).refcnt = (s.buf x).refcnt ∧
      (t.buf x).dev = (s.buf x).dev ∧ (t.buf x).blockno = (s.buf x).blockno := by
    intro x
    by_cases hxb : x = b
    · exact hxb ▸ hb
    · rw [hx x hxb]
      exact ⟨rfl, rfl, rfl, rfl⟩
  exact ⟨h.of_coherent hcoh (fun x => ⟨(hall x).1, (hall x).2.1⟩) hlist href hpc,
    careful_of (fun x => (hall x).2.2) hask⟩

theorem goto_asked (hask : (s.pc p).asked = none) (q : Fin n) (b : Index) (k : ℕ)
    (hq : (s.pc q).asked = some (b, k)) : (s.goto p pc).pc q = s.pc q := by
  refine Bcache.goto_of_ne ?_
  rintro rfl
  rw [hask] at hq
  cases hq

/-! ### The other processes -/

theorem bget_pc {k : ℕ} {q : Fin n} (hs : bget p k s = some s') (hq : q ≠ p) :
    s'.pc q = s.pc q := by
  unfold bget at hs
  cases hc : cached k s with
  | some b =>
    rw [hc] at hs
    obtain rfl := Option.some.inj hs
    exact Bcache.goto_of_ne hq
  | none =>
    rw [hc] at hs
    obtain ⟨b, -, rfl⟩ := Option.map_eq_some_iff.mp hs
    exact Bcache.goto_of_ne hq

theorem locked_pc {k : ℕ} {q : Fin n} (hs : locked p b k s = some s') (hq : q ≠ p) :
    s'.pc q = s.pc q := by
  unfold locked at hs
  dsimp only at hs
  split_ifs at hs
  · obtain rfl := Option.some.inj hs
    exact Bcache.goto_of_ne hq
  · obtain ⟨t, ht, rfl⟩ := Option.map_eq_some_iff.mp hs
    unfold iderw at ht
    split_ifs at ht
    obtain rfl := Option.some.inj ht
    exact Bcache.goto_of_ne hq

theorem bwrite_eq (hs : bwrite p b s = some s') : { s.setBuf b (fun r => { r with dirty := true }) with
    queued := Function.update s.queued b true
    unwritten := Function.update s.unwritten b false }.goto p (.writing b) = s' := by
  unfold bwrite at hs
  split_ifs at hs
  obtain ⟨t, ht, rfl⟩ := Option.map_eq_some_iff.mp hs
  unfold iderw at ht
  split_ifs at ht
  obtain rfl := Option.some.inj ht
  rfl

theorem unref_buf : (unref p b s).buf = (s.setBuf b fun r => { r with refcnt := r.refcnt - 1 }).buf := by
  unfold unref
  dsimp only
  split_ifs <;> rfl

theorem unref_pc {q : Fin n} (hq : q ≠ p) : (unref p b s).pc q = s.pc q := by
  unfold unref
  dsimp only
  split_ifs <;> exact Bcache.goto_of_ne hq

/-! ### One lemma for each function -/

theorem bufInv_bread {k : ℕ} (h : BufInv s) (hpc : s.pc p = .running) (hs : bget p k s = some s') :
    BufInv s' ∧ Careful s (.bread p k) s' := by
  obtain ⟨hinv, hre⟩ := h.bget hpc hs
  refine ⟨hinv, hre, fun q b j hq hr => ?_⟩
  -- the process that calls `bread` waits now, and the others do what they did
  have hqp : q ≠ p := by
    rintro rfl
    rw [hpc] at hq
    cases hq
  have hsame : s'.pc q = s.pc q := bget_pc hs hqp
  rw [hsame] at hr
  rw [hr] at hq
  cases hq

theorem bufInv_locked {k : ℕ} (h : BufInv s) (hpc : s.pc p = .waiting b k)
    (hl : (s.buf b).lock.locked = false) (hs : locked p b k s = some s') :
    BufInv s' ∧ Careful s (.acquiresleep p) s' := by
  obtain ⟨hinv, hname, hpid, hv⟩ := h.locked hpc hl hs
  refine ⟨hinv, fun x hx => ?_, fun q x j hq hr => ?_⟩
  · rw [(hname x).1, (hname x).2] at hx
    simp at hx
  · have hqp : q = p := by
      by_contra hqp
      rw [locked_pc hs hqp] at hr
      rw [hr] at hq
      cases hq
    subst hqp
    rw [hpc] at hq
    obtain ⟨rfl, rfl⟩ := Prod.mk.inj (Option.some.inj hq)
    obtain ⟨hdev, hblk⟩ := h.coherent.asked q b k (by rw [hpc]; rfl)
    have hdata := (hinv.coherent.data b (hv hr)).2
    rw [(hname b).2, hblk] at hdata
    exact ⟨hpid, (hname b).1.trans hdev, (hname b).2.trans hblk, hdata⟩

theorem BufPc.ref_of_io {pc : BufPc} (h : pc.io = some b) : pc.ref = none := by
  cases pc with
  | reading x k => rfl
  | writing x => rfl
  | running => rfl
  | waiting x k => cases h
  | releasing x => cases h

theorem BufPc.asked_of_io {pc : BufPc} {x : Index} {k : ℕ} (h : pc.io = some b)
    (hask : pc.asked = some (x, k)) : x = b := by
  cases pc with
  | reading y j =>
    obtain ⟨rfl, -⟩ := Prod.mk.inj (Option.some.inj hask)
    exact Option.some.inj h
  | running => cases h
  | waiting y j => cases h
  | writing y => cases hask
  | releasing y => cases h

/-- `iderw` returns: the buffer is valid and clean. -/
theorem bufInv_iderw (h : BufInv s) (hio : (s.pc p).io = some b)
    (hb : (s.buf b).valid = true ∧ (s.buf b).dirty = false) :
    BufInv (s.goto p .running) ∧ Careful s (.iderw p) (s.goto p .running) := by
  refine ⟨h.of_coherent (h.coherent.finish hio hb.1 hb.2) (fun _ => ⟨rfl, rfl⟩) ⟨rfl, rfl, rfl⟩
    (fun q => ?_) (BufInv.goto_releasing fun x hx => by cases hx), fun x hx => ?_,
      fun q x k hq hr => ?_⟩
  · by_cases hqp : q = p
    · subst hqp
      rw [Bcache.goto_self, BufPc.ref_of_io hio]
      rfl
    · rw [Bcache.goto_of_ne hqp]
  · simp at hx
  · have hqp : q = p := by
      by_contra hqp
      rw [Bcache.goto_of_ne hqp] at hr
      rw [hr] at hq
      cases hq
    subst hqp
    obtain rfl := BufPc.asked_of_io hio hq
    obtain ⟨hdev, rfl⟩ := h.coherent.asked q x k hq
    exact ⟨h.coherent.busy q x hio, hdev, rfl, (h.coherent.data x hb.1).2⟩

theorem bufInv_bwrite (h : BufInv s) (hu : s.Uses p b) (hs : bwrite p b s = some s') :
    BufInv s' ∧ Careful s (.bwrite p b) s' := by
  have hcoh := h.coherent.bwrite hu hs
  obtain rfl := bwrite_eq hs
  have hask : (s.pc p).asked = none := by rw [hu.1]; rfl
  refine bufInv_at (b := b) h hcoh (fun x hx => ?_) ?_ ⟨rfl, rfl, rfl⟩ (fun q => ?_)
    (BufInv.goto_releasing fun x hx => by cases hx) (goto_asked hask)
  · simp [Bcache.setBuf_of_ne hx]
  · simp
  · by_cases hqp : q = p
    · subst hqp
      rw [Bcache.goto_self, hu.1]
      rfl
    · rw [Bcache.goto_of_ne hqp]
      rfl

theorem bufInv_brelse (h : BufInv s) (hu : s.Uses p b) (hw : s.unwritten b = false)
    (hs : brelse p b s = some s') : BufInv s' ∧ Careful s (.brelse p b) s' := by
  have hask : (s.pc p).asked = none := by rw [hu.1]; rfl
  unfold brelse at hs
  split_ifs at hs
  obtain rfl := Option.some.inj hs
  refine ⟨h.brelse hu hw, careful_of (fun x => ?_) (goto_asked hask)⟩
  by_cases hx : x = b
  · subst hx
    simp
  · rw [Bcache.goto_buf, Bcache.setBuf_of_ne hx]
    exact ⟨rfl, rfl⟩

theorem bufInv_unref (h : BufInv s) (hpc : s.pc p = .releasing b) :
    BufInv (unref p b s) ∧ Careful s (.unref p) (unref p b s) := by
  have hask : (s.pc p).asked = none := by rw [hpc]; rfl
  refine ⟨h.unref hpc, careful_of (fun x => ?_) fun q x k hq => ?_⟩
  · rw [unref_buf]
    by_cases hx : x = b
    · subst hx
      simp
    · rw [Bcache.setBuf_of_ne hx]
      exact ⟨rfl, rfl⟩
  · exact unref_pc fun hqp => by rw [hqp, hask] at hq; cases hq

theorem bufInv_refl {e : BufEvent n} (h : BufInv s) : BufInv s ∧ Careful s e s :=
  ⟨h, careful_of (fun _ => ⟨rfl, rfl⟩) fun _ _ _ _ => rfl⟩

/-- **Every step** keeps the invariant and is careful. -/
theorem bufInv_step {e : BufEvent n} (h : BufInv s) (hs : bufStep e s = some s') :
    BufInv s' ∧ Careful s e s' := by
  cases e with
  | bread p k =>
    simp only [bufStep] at hs
    split_ifs at hs with hpc
    exact bufInv_bread h hpc hs
  | acquiresleep p =>
    simp only [bufStep] at hs
    cases hpc : s.pc p with
    | waiting b k =>
      simp only [hpc] at hs
      split_ifs at hs with hl
      · obtain rfl := Option.some.inj hs
        exact bufInv_refl h
      · exact bufInv_locked h hpc (by simpa using hl) hs
    | running => simp [hpc] at hs
    | reading b k => simp [hpc] at hs
    | writing b => simp [hpc] at hs
    | releasing b => simp [hpc] at hs
  | ideintr b =>
    simp only [bufStep] at hs
    split_ifs at hs with hg
    obtain rfl := Option.some.inj hs
    refine bufInv_at (b := b) h (h.coherent.ideintr hg.1) (fun x hx => ?_) ?_ ⟨rfl, rfl, rfl⟩
      (fun _ => rfl) (fun _ _ hq => hq) fun _ _ _ _ => rfl
    · simp [ideintr, Bcache.setBuf_of_ne hx]
    · simp [ideintr]
  | iderw p =>
    simp only [bufStep] at hs
    cases hpc : s.pc p with
    | reading b k =>
      simp only [hpc] at hs
      split_ifs at hs with hg
      all_goals obtain rfl := Option.some.inj hs
      · exact bufInv_iderw h (by rw [hpc]; rfl) hg
      · exact bufInv_refl h
    | writing b =>
      simp only [hpc] at hs
      split_ifs at hs with hg
      all_goals obtain rfl := Option.some.inj hs
      · exact bufInv_iderw h (by rw [hpc]; rfl) hg
      · exact bufInv_refl h
    | running => simp [hpc] at hs
    | waiting b k => simp [hpc] at hs
    | releasing b => simp [hpc] at hs
  | modify p b data =>
    simp only [bufStep] at hs
    split_ifs at hs with hu
    obtain rfl := Option.some.inj hs
    refine bufInv_at (b := b) h (h.coherent.modify hu data) (fun x hx => ?_) ?_ ⟨rfl, rfl, rfl⟩
      (fun _ => rfl) (fun _ _ hq => hq) fun _ _ _ _ => rfl
    · simp [Bcache.setBuf_of_ne hx]
    · simp
  | bwrite p b =>
    simp only [bufStep] at hs
    split_ifs at hs with hu
    exact bufInv_bwrite h hu hs
  | log_write p b =>
    simp only [bufStep] at hs
    split_ifs at hs with hu
    obtain rfl := Option.some.inj hs
    refine bufInv_at (b := b) h (h.coherent.log_write hu) (fun x hx => ?_) ?_ ⟨rfl, rfl, rfl⟩
      (fun _ => rfl) (fun _ _ hq => hq) fun _ _ _ _ => rfl
    · simp [log_write, Bcache.setBuf_of_ne hx]
    · simp [log_write]
  | brelse p b =>
    simp only [bufStep] at hs
    split_ifs at hs with hu
    exact bufInv_brelse h hu.1 hu.2 hs
  | unref p =>
    simp only [bufStep] at hs
    cases hpc : s.pc p with
    | releasing b =>
      simp only [hpc] at hs
      obtain rfl := Option.some.inj hs
      exact bufInv_unref h hpc
    | running => simp [hpc] at hs
    | waiting b k => simp [hpc] at hs
    | reading b k => simp [hpc] at hs
    | writing b => simp [hpc] at hs

/-- **The buffer cache.** For any number of processes and any interleaving: the buffers are as
`Cached` says throughout a run, and every step of it is as `Careful` says. -/
theorem bcache_sound (disk : Disk) (es : List (BufEvent n)) :
    Throughout bufStep Cached es (bcacheStart n disk) ∧
      Along bufStep Careful es (bcacheStart n disk) := by
  refine ⟨?_, ?_⟩
  · have hinv : Throughout bufStep BufInv es (bcacheStart n disk) :=
      throughout_of_inv (fun _ _ _ h hs => (bufInv_step h hs).1) (bcacheStart_inv disk)
    exact hinv.mono fun _ h => h.cached
  · exact along_of_inv (I := BufInv) (fun _ _ _ h hs => (bufInv_step h hs).1)
      (fun _ _ _ h hs => (bufInv_step h hs).2) (bcacheStart_inv disk)

end Bio

end OsPlayground
