import OsPlayground.Sync.Cli

/-!
# Mutual exclusion under interrupts

The claims that the comments of `spinlock.c` make for `acquire`, `release`, `pushcli` and `popcli`, in
every run of the system of `Cli`.

* `Inv`, `inv_step`: what every step keeps. `Inv.local` is for a step that changes one CPU,
  `Inv.switch` for a switch.
* **`locks_run`**: mutual exclusion, `holding` is right, interrupts are off while a lock is held, and
  the last `popcli` restores what the first `pushcli` found.
* **`locks_panic`**: the checks of these functions fail exactly when a lock is misused.
-/

namespace OsPlayground

/-! ## The invariant -/

namespace Locks

open Lib

variable {L : Type}

namespace Pc

/-- The part of `ncli` that is not for a lock held, nor for other code. -/
def pending : Pc L → ℕ
  | .check _ | .check' _ | .xchg _ | .popcli => 1
  | _ => 0

/-- Interrupts are off whatever `ncli` is. -/
def masked : Pc L → Bool
  | .pushed _ _ | .popped => true
  | _ => false

/-- What holds of the CPU there. -/
def Place (lock : L → Spinlock) (k : Cpu L) : Pc L → Prop
  | .pushcli _ eflags => eflags = k.iff
  | .xchg l => l ∉ k.held
  | .setcpu l | .clear l => l ∈ k.held
  | .unlock l => l ∈ k.held ∧ (lock l).cpu = none
  | .resumed _ => 0 < k.ncli
  | .swtch _ | .fresh => False
  | _ => True

/-- An interrupt can come there. -/
def Open : Pc L → Prop
  | .run | .holding _ | .holding' _ => True
  | .pushcli _ eflags => eflags = true
  | _ => False

/-- `intena`, or what it will be, is `w`. -/
def Restores (intena w : Bool) : Pc L → Prop
  | .resumed i => i = w
  | _ => intena = w

end Pc

/-- The counter, the flags and the locks of the CPU `c`, which is at `v`. -/
structure CpuOk (lock : L → Spinlock) (c : ℕ) (k : Cpu L) (v : Pc L) : Prop where
  depth : k.ncli = k.held.length + k.bare + v.pending
  off : 0 < k.ncli ∨ v.masked = true → k.iff = false
  nodup : k.held.Nodup
  locked : ∀ l ∈ k.held, (lock l).locked = true
  owner : ∀ l ∈ k.held, v ≠ .setcpu l → v ≠ .unlock l → (lock l).cpu = some c
  held : ∀ l, (lock l).cpu = some c → l ∈ k.held
  place : v.Place lock k

/-- The invariant of the locks. -/
structure Inv (s : Cpus L) : Prop where
  cpu : ∀ c, CpuOk s.lock c (s.cpu c) (s.pc c)
  apart : ∀ c d l, l ∈ (s.cpu c).held → l ∈ (s.cpu d).held → c = d
  taken : ∀ l, (s.lock l).locked = true → ∃ c, l ∈ (s.cpu c).held
  threads : ∀ c d, (s.cpu c).thread = (s.cpu d).thread → c = d
  home : ∀ c d, (s.cpu c).thread = .scheduler d → c = d
  below : ∀ t, ∀ v ∈ (s.stack t).tail, v.Open
  flags : ∀ c p, (s.cpu c).thread = .proc p → 0 < (s.cpu c).ncli ∨ s.pc c = .popped →
    (s.pc c).Restores (s.cpu c).intena (s.was (.proc p))
  saved : ∀ p i, (s.stack (.proc p)).headD .run = .swtch i → i = s.was (.proc p)

section Steps

variable {lock : L → Spinlock} {c d p : ℕ} {k : Cpu L} {v v' : Pc L} {l : L} {s s' : Cpus L}
  {ptable : L} {t : Thread} {lk : Spinlock}

theorem CpuOk.ncli_pos (h : CpuOk lock c k v) (hl : l ∈ k.held) : 0 < k.ncli := by
  have hlen := List.length_pos_of_mem hl
  have := h.depth
  omega

theorem CpuOk.move (h : CpuOk lock c k v) (hp : v'.pending = v.pending)
    (hm : v'.masked = true → k.iff = false)
    (ho : ∀ l ∈ k.held, v' ≠ .setcpu l → v' ≠ .unlock l → (lock l).cpu = some c)
    (hpl : v'.Place lock k) : CpuOk lock c k v' :=
  ⟨by rw [hp]; exact h.depth, fun ho => ho.elim (fun h0 => h.off (.inl h0)) hm, h.nodup, h.locked, ho,
    h.held, hpl⟩

theorem goto_pc : (s.goto (s.cpu c).thread v).pc c = v := by
  unfold Cpus.goto Cpus.pc
  dsimp only
  rw [Function.update_self]
  rfl

/-- What a step of the CPU `c` leaves alone. -/
structure Local (c : ℕ) (s s' : Cpus L) : Prop where
  cpu : ∀ d, d ≠ c → s'.cpu d = s.cpu d
  thread : (s'.cpu c).thread = (s.cpu c).thread
  stack : ∀ t, t ≠ (s.cpu c).thread → s'.stack t = s.stack t
  below : ∀ v ∈ (s'.stack (s.cpu c).thread).tail, v.Open
  lock : ∀ l, s'.lock l = s.lock l ∨ ∀ d, d ≠ c → l ∉ (s.cpu d).held ∧ (s'.lock l).cpu ≠ some d
  held : ∀ l ∈ (s'.cpu c).held, l ∈ (s.cpu c).held ∨ ∀ d, d ≠ c → l ∉ (s.cpu d).held
  taken : ∀ l, (s'.lock l).locked = true →
    l ∈ (s'.cpu c).held ∨ l ∉ (s.cpu c).held ∧ (s.lock l).locked = true
  was : ∀ t, t ≠ (s.cpu c).thread → s'.was t = s.was t
  flags : ∀ p, (s.cpu c).thread = .proc p → 0 < (s'.cpu c).ncli ∨ s'.pc c = .popped →
    (s'.pc c).Restores (s'.cpu c).intena (s'.was (.proc p))

/-- **The other CPUs are as before.** -/
theorem Inv.local (h : Inv s) (hl : Local c s s') (hok : CpuOk s'.lock c (s'.cpu c) (s'.pc c)) :
    Inv s' := by
  have hthread : ∀ d, (s'.cpu d).thread = (s.cpu d).thread := fun d => by
    by_cases hd : d = c
    · rw [hd, hl.thread]
    · rw [hl.cpu d hd]
  have hne : ∀ d, d ≠ c → (s.cpu d).thread ≠ (s.cpu c).thread := fun d hd ht => hd (h.threads d c ht)
  have hpc : ∀ d, d ≠ c → s'.pc d = s.pc d := fun d hd => by
    rw [Cpus.pc, hthread, hl.stack _ (hne d hd)]
    rfl
  refine ⟨fun d => ?_, fun d e l hd he => ?_, fun l hlk => ?_, fun d e hde => ?_, fun d e hde => ?_,
    fun t v hv => ?_, fun d p hd hn => ?_, fun p i hi => ?_⟩
  · by_cases hd : d = c
    · rw [hd]
      exact hok
    · have hold := h.cpu d
      rw [hl.cpu d hd, hpc d hd]
      have hsame : ∀ l ∈ (s.cpu d).held, s'.lock l = s.lock l := fun l hl' =>
        (hl.lock l).resolve_right fun hno => (hno d hd).1 hl'
      refine ⟨hold.depth, hold.off, hold.nodup, fun l hl' => ?_, fun l hl' h1 h2 => ?_, fun l hcpu => ?_,
        ?_⟩
      · rw [hsame l hl']
        exact hold.locked l hl'
      · rw [hsame l hl']
        exact hold.owner l hl' h1 h2
      · rcases hl.lock l with hsl | hno
        · rw [hsl] at hcpu
          exact hold.held l hcpu
        · exact absurd hcpu (hno d hd).2
      · have hplace := hold.place
        cases hv : s.pc d with
        | unlock l =>
          rw [hv] at hplace
          exact ⟨hplace.1, by rw [hsame l hplace.1]; exact hplace.2⟩
        | _ =>
          rw [hv] at hplace
          exact hplace
  · by_cases hdc : d = c
    · by_cases hec : e = c
      · rw [hdc, hec]
      · rw [hl.cpu e hec] at he
        rw [hdc] at hd ⊢
        exact (hl.held l hd).elim (fun hd => h.apart c e l hd he) fun hno => absurd he (hno e hec)
    · rw [hl.cpu d hdc] at hd
      by_cases hec : e = c
      · rw [hec] at he ⊢
        exact (hl.held l he).elim (fun he => h.apart d c l hd he) fun hno => absurd hd (hno d hdc)
      · rw [hl.cpu e hec] at he
        exact h.apart d e l hd he
  · rcases hl.taken l hlk with hmem | ⟨hnot, hold⟩
    · exact ⟨c, hmem⟩
    · obtain ⟨d, hd⟩ := h.taken l hold
      have hdc : d ≠ c := fun hdc => hnot (hdc ▸ hd)
      exact ⟨d, by rwa [hl.cpu d hdc]⟩
  · rw [hthread, hthread] at hde
    exact h.threads d e hde
  · rw [hthread] at hde
    exact h.home d e hde
  · by_cases ht : t = (s.cpu c).thread
    · rw [ht] at hv
      exact hl.below v hv
    · rw [hl.stack t ht] at hv
      exact h.below t v hv
  · by_cases hdc : d = c
    · rw [hdc] at hd hn ⊢
      exact hl.flags p (hl.thread ▸ hd) hn
    · rw [hl.cpu d hdc] at hd hn ⊢
      rw [hpc d hdc] at hn ⊢
      rw [hl.was _ (fun hp => hne d hdc (hd.trans hp))]
      exact h.flags d p hd hn
  · by_cases hp : .proc p = (s.cpu c).thread
    · have hplace := hok.place
      have hat : s'.pc c = .swtch i := by rw [Cpus.pc, hl.thread, ← hp, hi]
      rw [hat] at hplace
      exact absurd hplace id
    · rw [hl.stack _ hp] at hi
      rw [hl.was _ hp]
      exact h.saved p i hi

/-- A step of the CPU `c` that changes no lock. -/
theorem Inv.quiet {j : Cpu L} (h : Inv s) (hcpu : s'.cpu = Function.update s.cpu c j)
    (hstack : s'.stack = Function.update s.stack (s.cpu c).thread
      (v :: (s.stack (s.cpu c).thread).tail))
    (hthread : j.thread = (s.cpu c).thread) (hlock : s'.lock = s.lock)
    (hheld : j.held = (s.cpu c).held) (hwas : ∀ t, t ≠ (s.cpu c).thread → s'.was t = s.was t)
    (hok : CpuOk s.lock c j v)
    (hflags : ∀ p, (s.cpu c).thread = .proc p → 0 < j.ncli ∨ v = .popped →
      v.Restores j.intena (s'.was (.proc p))) : Inv s' := by
  have hself : s'.cpu c = j := by rw [hcpu, Function.update_self]
  have hpc : s'.pc c = v := by
    rw [Cpus.pc, hself, hthread, hstack, Function.update_self]
    rfl
  refine h.local ⟨fun d hd => by rw [hcpu, Function.update_of_ne hd], by rw [hself, hthread],
    fun t ht => by rw [hstack, Function.update_of_ne ht], fun v hv => ?_, fun l => ?_, fun l hl => ?_,
    fun l hl => ?_, hwas, fun p hp => ?_⟩ (by rwa [hself, hpc, hlock])
  · rw [hstack, Function.update_self] at hv
    exact h.below _ v hv
  · rw [hlock]
    exact .inl rfl
  · rw [hself, hheld] at hl
    exact .inl hl
  · rw [hself, hheld]
    rw [hlock] at hl
    exact (em _).imp_right fun hno => ⟨hno, hl⟩
  · rw [hself, hpc]
    exact hflags p hp

theorem Inv.goto (h : Inv s) (hok : CpuOk s.lock c (s.cpu c) v)
    (hflags : ∀ p, (s.cpu c).thread = .proc p → 0 < (s.cpu c).ncli ∨ v = .popped →
      v.Restores (s.cpu c).intena (s.was (.proc p))) : Inv (s.goto (s.cpu c).thread v) :=
  h.quiet (j := s.cpu c) (Function.update_eq_self _ _).symm rfl rfl rfl rfl (fun _ _ => rfl) hok
    hflags

/-- A step of the CPU `c` on a lock that no other CPU holds. -/
theorem Inv.relock [DecidableEq L] {j : Cpu L} (h : Inv s)
    (hcpu : s'.cpu = Function.update s.cpu c j)
    (hstack : s'.stack = Function.update s.stack (s.cpu c).thread
      (v :: (s.stack (s.cpu c).thread).tail))
    (hthread : j.thread = (s.cpu c).thread) (hlock : s'.lock = Function.update s.lock l lk)
    (hfree : ∀ d, d ≠ c → l ∉ (s.cpu d).held) (hother : ∀ d, d ≠ c → lk.cpu ≠ some d)
    (hheld : ∀ m ∈ j.held, m ∈ (s.cpu c).held ∨ m = l)
    (hkeep : ∀ m, m ≠ l → m ∈ (s.cpu c).held → m ∈ j.held)
    (htaken : lk.locked = true → l ∈ j.held) (hwas : s'.was = s.was)
    (hok : CpuOk (Function.update s.lock l lk) c j v)
    (hflags : ∀ p, (s.cpu c).thread = .proc p → 0 < j.ncli ∨ v = .popped →
      v.Restores j.intena (s.was (.proc p))) : Inv s' := by
  have hself : s'.cpu c = j := by rw [hcpu, Function.update_self]
  have hpc : s'.pc c = v := by
    rw [Cpus.pc, hself, hthread, hstack, Function.update_self]
    rfl
  refine h.local ⟨fun d hd => by rw [hcpu, Function.update_of_ne hd], by rw [hself, hthread],
    fun t ht => by rw [hstack, Function.update_of_ne ht], fun v hv => ?_, fun m => ?_, fun m hm => ?_,
    fun m hm => ?_, fun t _ => by rw [hwas], fun p hp => ?_⟩ (by rwa [hself, hpc, hlock])
  · rw [hstack, Function.update_self] at hv
    exact h.below _ v hv
  · rw [hlock]
    by_cases hml : m = l
    · rw [hml, Function.update_self]
      exact .inr fun d hd => ⟨hfree d hd, hother d hd⟩
    · exact .inl (Function.update_of_ne hml _ _)
  · rw [hself] at hm
    exact (hheld m hm).imp_right fun hml => by rwa [hml]
  · rw [hself]
    rw [hlock] at hm
    by_cases hml : m = l
    · rw [hml, Function.update_self] at hm
      rw [hml]
      exact .inl (htaken hm)
    · rw [Function.update_of_ne hml] at hm
      exact (em _).imp (hkeep m hml) fun hno => ⟨hno, hm⟩
  · rw [hself, hpc, hwas]
    exact hflags p hp

theorem Inv.panic (h : Inv s) (m : String) : Inv (s.panic m) :=
  ⟨h.cpu, h.apart, h.taken, h.threads, h.home, h.below, h.flags, h.saved⟩

theorem mycpu_eq {s' : Cpus L} (hoff : (s.cpu c).iff = false) : s.mycpu c s' = s' :=
  if_neg (by rw [hoff]; decide)

theorem Inv.intena (h : Inv s) (hr : ∀ i, s.pc c ≠ .resumed i) (hp : (s.cpu c).thread = .proc p)
    (hn : 0 < (s.cpu c).ncli ∨ s.pc c = .popped) : (s.cpu c).intena = s.was (.proc p) := by
  have hf := h.flags c p hp hn
  cases hv : s.pc c with
  | resumed i => exact absurd hv (hr i)
  | _ =>
    rw [hv] at hf
    exact hf

/-! ### The steps -/

theorem go_pushcli {o : Option L} {e : Bool} (h : Inv s) (hv : s.pc c = .pushcli o e) :
    Inv ((s.setCpu c { s.cpu c with iff := false }).goto (s.cpu c).thread (.pushed o e)) := by
  have hok := h.cpu c
  rw [hv] at hok
  exact h.quiet rfl rfl rfl rfl rfl (fun _ _ => rfl)
    ⟨hok.depth, fun _ => rfl, hok.nodup, hok.locked, fun l hl _ _ => hok.owner l hl (by simp) (by simp),
      hok.held, trivial⟩
    fun p hp hn => h.intena (by simp [hv]) hp (hn.imp_right fun hn => by cases hn)

theorem go_pushed {o : Option L} {e : Bool} (h : Inv s) (hv : s.pc c = .pushed o e) :
    Inv (s.pushed c o e) := by
  have hok := h.cpu c
  rw [hv] at hok
  have hoff := hok.off (.inr rfl)
  have hdepth : (s.cpu c).ncli = (s.cpu c).held.length + (s.cpu c).bare + (0 : ℕ) := hok.depth
  have hwas : ∀ t, t ≠ (s.cpu c).thread →
      (if (s.cpu c).ncli = 0 then Function.update s.was (s.cpu c).thread e else s.was) t = s.was t := by
    intro t ht
    split_ifs
    · exact Function.update_of_ne ht _ _
    · rfl
  have hflags : ∀ p, (s.cpu c).thread = .proc p →
      (if (s.cpu c).ncli = 0 then e else (s.cpu c).intena) =
        (if (s.cpu c).ncli = 0 then Function.update s.was (s.cpu c).thread e else s.was)
          (.proc p) := by
    intro p hp
    split_ifs with h0
    · rw [hp, Function.update_self]
    · exact h.intena (by simp [hv]) hp (.inl (by omega))
  have howner := fun l hl => hok.owner l hl (by simp) (by simp)
  cases o with
  | some l =>
    exact h.quiet (v := .check l) rfl rfl rfl rfl rfl hwas
      ⟨by simp only [Pc.pending]; omega, fun _ => hoff, hok.nodup, hok.locked,
        fun l hl _ _ => howner l hl, hok.held, trivial⟩ fun p hp _ => hflags p hp
  | none =>
    exact h.quiet (v := .run) rfl rfl rfl rfl rfl hwas
      ⟨by simp only [Pc.pending]; push_cast; omega, fun _ => hoff, hok.nodup, hok.locked,
        fun l hl _ _ => howner l hl, hok.held, trivial⟩ fun p hp _ => hflags p hp

theorem go_on (h : Inv s) (hp : v.pending = (s.pc c).pending) (hm : v.masked = false)
    (hs : ∀ l, s.pc c ≠ .setcpu l) (hu : ∀ l, s.pc c ≠ .unlock l) (hr : ∀ i, s.pc c ≠ .resumed i)
    (hn : v ≠ .popped) (hvr : ∀ i, v ≠ .resumed i) (hpl : v.Place s.lock (s.cpu c)) :
    Inv (s.goto (s.cpu c).thread v) := by
  have hok := h.cpu c
  refine h.goto (hok.move hp (fun hmt => by rw [hm] at hmt; cases hmt)
    (fun l hl _ _ => hok.owner l hl (hs l) (hu l)) hpl) fun p hp' hpos => ?_
  have hi := h.intena hr hp' (.inl (hpos.resolve_right hn))
  cases v with
  | resumed i => exact absurd rfl (hvr i)
  | _ => exact hi

theorem Inv.alone (h : Inv s) (hl : l ∈ (s.cpu c).held) : ∀ d, d ≠ c → l ∉ (s.cpu d).held :=
  fun d hd hm => hd (h.apart d c l hm hl)

section Lock

variable [DecidableEq L]

theorem go_xchg (h : Inv s) (hv : s.pc c = .xchg l) (hfree : (s.lock l).locked = false) :
    Inv (((s.setLock l { s.lock l with locked := true }).setCpu c
      { s.cpu c with held := l :: (s.cpu c).held }).goto (s.cpu c).thread (.setcpu l)) := by
  have hok := h.cpu c
  rw [hv] at hok
  have hnone : ∀ d, l ∉ (s.cpu d).held := fun d hd => by
    have hlocked := (h.cpu d).locked l hd
    rw [hfree] at hlocked
    cases hlocked
  have hdepth : (s.cpu c).ncli = (s.cpu c).held.length + (s.cpu c).bare + (1 : ℕ) := hok.depth
  refine h.relock (v := .setcpu l) rfl rfl rfl rfl (fun d _ => hnone d)
    (fun d _ hd => hnone d ((h.cpu d).held l hd)) (fun m hm => (List.mem_cons.1 hm).symm)
    (fun m _ hm => List.mem_cons_of_mem l hm) (fun _ => List.mem_cons_self) rfl ?_
    fun p hp _ => h.intena (by simp [hv]) hp (.inl (by omega))
  refine ⟨by simp only [Pc.pending, List.length_cons]; push_cast; omega,
    fun _ => hok.off (.inl (by omega)), List.nodup_cons.2 ⟨hok.place, hok.nodup⟩, fun m hm => ?_,
    fun m hm hset _ => ?_, fun m hm => ?_, List.mem_cons_self⟩
  · by_cases hml : m = l
    · rw [hml, Function.update_self]
    · rw [Function.update_of_ne hml]
      exact hok.locked m ((List.mem_cons.1 hm).resolve_left hml)
  · have hml : m ≠ l := fun hml => hset (by rw [hml])
    rw [Function.update_of_ne hml]
    exact hok.owner m ((List.mem_cons.1 hm).resolve_left hml) (by simp) (by simp)
  · by_cases hml : m = l
    · rw [hml]
      exact List.mem_cons_self
    · rw [Function.update_of_ne hml] at hm
      exact List.mem_cons_of_mem l (hok.held m hm)

/-- A step of the CPU `c` that changes the field `cpu` of a lock that it holds. -/
theorem set_owner {o : Option ℕ} (h : Inv s) (hl : l ∈ (s.cpu c).held)
    (ho : ∀ d, d ≠ c → o ≠ some d) (hp : v.pending = (s.pc c).pending) (hm : v.masked = false)
    (hs : ∀ m, m ≠ l → s.pc c ≠ .setcpu m) (hu : ∀ m, s.pc c ≠ .unlock m)
    (hr : ∀ i, s.pc c ≠ .resumed i) (hvr : ∀ i, v ≠ .resumed i)
    (hvo : v ≠ .unlock l → v ≠ .setcpu l → o = some c)
    (hpl : v.Place (Function.update s.lock l { s.lock l with cpu := o }) (s.cpu c)) :
    Inv ((s.setLock l { s.lock l with cpu := o }).goto (s.cpu c).thread v) := by
  have hok := h.cpu c
  have hpos := hok.ncli_pos hl
  refine h.relock (j := s.cpu c) (Function.update_eq_self _ _).symm rfl rfl rfl (h.alone hl) ho
    (fun m hm => .inl hm) (fun m _ hm => hm) (fun _ => hl) rfl ?_ fun p hp' _ => ?_
  · refine ⟨by rw [hp]; exact hok.depth, fun _ => hok.off (.inl hpos), hok.nodup, fun m hm' => ?_,
      fun m hm' hset hun => ?_, fun m hm' => ?_, hpl⟩
    · by_cases hml : m = l
      · rw [hml, Function.update_self]
        exact hok.locked l hl
      · rw [Function.update_of_ne hml]
        exact hok.locked m hm'
    · by_cases hml : m = l
      · rw [hml, Function.update_self]
        rw [hml] at hset hun
        exact hvo hun hset
      · rw [Function.update_of_ne hml]
        exact hok.owner m hm' (hs m hml) (hu m)
    · by_cases hml : m = l
      · rwa [hml]
      · rw [Function.update_of_ne hml] at hm'
        exact hok.held m hm'
  · have hi := h.intena hr hp' (.inl hpos)
    cases v with
    | resumed i => exact absurd rfl (hvr i)
    | _ => exact hi

theorem go_setcpu (h : Inv s) (hv : s.pc c = .setcpu l) :
    Inv ((s.setLock l { s.lock l with cpu := some c }).goto (s.cpu c).thread .run) := by
  have hplace := (h.cpu c).place
  rw [hv] at hplace
  refine set_owner h hplace (fun d hd hcd => hd (Option.some.inj hcd).symm) (by rw [hv]; rfl) rfl
    (fun m hm hvm => ?_) (by simp [hv]) (by simp [hv]) (by simp) (fun _ _ => rfl) trivial
  rw [hv] at hvm
  exact hm (Pc.setcpu.inj hvm).symm

theorem go_clear (h : Inv s) (hv : s.pc c = .clear l) :
    Inv ((s.setLock l { s.lock l with cpu := none }).goto (s.cpu c).thread (.unlock l)) := by
  have hplace := (h.cpu c).place
  rw [hv] at hplace
  exact set_owner h hplace (fun d _ => by simp) (by rw [hv]; rfl) rfl (by simp [hv]) (by simp [hv])
    (by simp [hv]) (by simp) (fun hno _ => absurd rfl hno)
    ⟨hplace, by rw [Function.update_self]⟩

theorem go_unlock (h : Inv s) (hv : s.pc c = .unlock l) :
    Inv (((s.setLock l { s.lock l with locked := false }).setCpu c
      { s.cpu c with held := (s.cpu c).held.erase l }).goto (s.cpu c).thread .popcli) := by
  have hok := h.cpu c
  rw [hv] at hok
  obtain ⟨hl, hcpu⟩ := hok.place
  have hpos := hok.ncli_pos hl
  have hlen := List.length_erase_of_mem hl
  have hlen' := List.length_pos_of_mem hl
  have hdepth : (s.cpu c).ncli = (s.cpu c).held.length + (s.cpu c).bare + (0 : ℕ) := hok.depth
  refine h.relock (v := .popcli) rfl rfl rfl rfl (h.alone hl) (fun d _ => ?_)
    (fun m hm => .inl (List.mem_of_mem_erase hm)) (fun m hml hm => (List.mem_erase_of_ne hml).2 hm)
    (fun hno => by cases hno) rfl ?_ fun p hp _ => h.intena (by simp [hv]) hp (.inl hpos)
  · simp [hcpu]
  refine ⟨by simp only [Pc.pending, hlen]; omega, fun _ => hok.off (.inl hpos), hok.nodup.erase l,
    fun m hm => ?_, fun m hm _ _ => ?_, fun m hm => ?_, trivial⟩
  · have hml := (List.Nodup.mem_erase_iff hok.nodup).1 hm
    rw [Function.update_of_ne hml.1]
    exact hok.locked m hml.2
  · have hml := (List.Nodup.mem_erase_iff hok.nodup).1 hm
    rw [Function.update_of_ne hml.1]
    exact hok.owner m hml.2 (by simp) fun hul => hml.1 (Pc.unlock.inj hul).symm
  · by_cases hml : m = l
    · rw [hml, Function.update_self] at hm
      exact absurd (hcpu.symm.trans hm) (by simp)
    · rw [Function.update_of_ne hml] at hm
      exact (List.mem_erase_of_ne hml).2 (hok.held m hm)

end Lock

theorem go_popcli (h : Inv s) (hv : s.pc c = .popcli) : s.popcli c = (s.setCpu c { s.cpu c with
      ncli := (s.cpu c).ncli - 1 }).goto (s.cpu c).thread .popped ∧ Inv (s.popcli c) := by
  have hok := h.cpu c
  rw [hv] at hok
  have hdepth : (s.cpu c).ncli = (s.cpu c).held.length + (s.cpu c).bare + (1 : ℕ) := hok.depth
  have hoff := hok.off (.inl (by omega))
  have heq : s.popcli c = (s.setCpu c { s.cpu c with
      ncli := (s.cpu c).ncli - 1 }).goto (s.cpu c).thread .popped := by
    unfold Cpus.popcli
    dsimp only
    rw [if_neg (by rw [hoff]; decide), if_neg (by omega)]
  refine ⟨heq, ?_⟩
  rw [heq]
  exact h.quiet (v := .popped) rfl rfl rfl rfl rfl (fun _ _ => rfl)
    ⟨by simp only [Pc.pending]; omega, fun _ => hoff, hok.nodup, hok.locked,
      fun l hl _ _ => hok.owner l hl (by simp) (by simp), hok.held, trivial⟩
    fun p hp _ => h.intena (by simp [hv]) hp (.inl (by omega))

theorem go_popped (h : Inv s) (hv : s.pc c = .popped) : Inv ((s.setCpu c { s.cpu c with
    iff := if (s.cpu c).ncli = 0 ∧ (s.cpu c).intena = true then true else (s.cpu c).iff }).goto
      (s.cpu c).thread .run) := by
  have hok := h.cpu c
  rw [hv] at hok
  have hoff := hok.off (.inr rfl)
  exact h.quiet (v := .run) rfl rfl rfl rfl rfl (fun _ _ => rfl)
    ⟨hok.depth, fun hpos => (if_neg fun h0 => by
        rcases hpos with hpos | hpos
        · dsimp only at hpos
          omega
        · cases hpos).trans hoff, hok.nodup, hok.locked,
      fun l hl _ _ => hok.owner l hl (by simp) (by simp), hok.held, trivial⟩
    fun p hp _ => h.intena (by simp [hv]) hp (.inr hv)

theorem go_resumed {i : Bool} (h : Inv s) (hv : s.pc c = .resumed i) :
    Inv ((s.setCpu c { s.cpu c with intena := i }).goto (s.cpu c).thread .run) := by
  have hok := h.cpu c
  rw [hv] at hok
  refine h.quiet (v := .run) rfl rfl rfl rfl rfl (fun _ _ => rfl)
    ⟨hok.depth, fun _ => hok.off (.inl hok.place), hok.nodup, hok.locked,
      fun l hl _ _ => hok.owner l hl (by simp) (by simp), hok.held, trivial⟩ fun p hp _ => ?_
  have hf := h.flags c p hp (.inl hok.place)
  rw [hv] at hf
  exact hf

/-! ### Other code -/

theorem popcli_inv (h : Inv s) (hv : s.pc c = .run) (hb : 0 < (s.cpu c).bare) :
    Inv ((s.setCpu c { s.cpu c with bare := (s.cpu c).bare - 1 }).goto (s.cpu c).thread .popcli) := by
  have hok := h.cpu c
  rw [hv] at hok
  have hdepth : (s.cpu c).ncli = (s.cpu c).held.length + (s.cpu c).bare + (0 : ℕ) := hok.depth
  exact h.quiet (v := .popcli) rfl rfl rfl rfl rfl (fun _ _ => rfl)
    ⟨by simp only [Pc.pending]; omega, fun _ => hok.off (.inl (by omega)), hok.nodup, hok.locked,
      fun l hl _ _ => hok.owner l hl (by simp) (by simp), hok.held, trivial⟩
    fun p hp _ => h.intena (by simp [hv]) hp (.inl (by omega))

theorem CpuOk.idle (h : CpuOk lock c k v) (hh : k.held = []) (hb : k.bare = 0)
    (hp : v.pending = 0) : k.ncli = 0 := by
  have := h.depth
  rw [hh, hb, hp] at this
  simpa using this

/-- `sti` and `cli` in other code. -/
theorem flag_inv {on : Bool} (h : Inv s) (hv : s.pc c = .run)
    (hon : on = true → (s.cpu c).held = [] ∧ (s.cpu c).bare = 0) :
    Inv (s.setCpu c { s.cpu c with iff := on }) := by
  have hok := h.cpu c
  rw [hv] at hok
  have hoff : 0 < (s.cpu c).ncli ∨ Pc.masked (L := L) .run = true → on = false := by
    intro hn
    refine Bool.eq_false_iff.2 fun hon' => ?_
    have h0 := hok.idle (hon hon').1 (hon hon').2 rfl
    rcases hn with hn | hn
    · omega
    · cases hn
  have hstack : ∀ v ∈ (s.stack (s.cpu c).thread).tail, v.Open := h.below _
  set s' := s.setCpu c { s.cpu c with iff := on } with hs'
  have hself : s'.cpu c = { s.cpu c with iff := on } := Function.update_self _ _ _
  have hpc : s'.pc c = .run := by
    rw [Cpus.pc, hself]
    exact hv
  refine h.local ⟨fun d hd => Function.update_of_ne hd _ _, by rw [hself], fun _ _ => rfl, hstack,
    fun _ => .inl rfl, fun l hl => ?_, fun l hl => ?_, fun _ _ => rfl, fun p hp hn => ?_⟩ ?_
  · rw [hself] at hl
    exact .inl hl
  · rw [hself]
    exact (em _).imp_right fun hno => ⟨hno, hl⟩
  · rw [hself, hpc] at hn ⊢
    exact h.intena (by simp [hv]) hp (.inl (hn.resolve_right (by simp)))
  · rw [hself, hpc]
    exact ⟨hok.depth, hoff, hok.nodup, hok.locked, fun l hl _ _ => hok.owner l hl (by simp) (by simp),
      hok.held, trivial⟩

/-- Where interrupts are on, one can come. -/
theorem CpuOk.open (h : CpuOk lock c k v) (hon : k.iff = true) :
    v.Open ∧ k.held = [] ∧ k.bare = 0 ∧ k.ncli = 0 := by
  have hn : ¬ (0 < k.ncli ∨ v.masked = true) := fun hn => by
    have := h.off hn
    rw [hon] at this
    cases this
  have hdepth := h.depth
  have hplace := h.place
  have hzero : k.ncli = 0 := by omega
  have hheld : k.held = [] := List.eq_nil_of_length_eq_zero (by omega)
  refine ⟨?_, hheld, by omega, hzero⟩
  cases v with
  | run | holding l | holding' l => trivial
  | pushcli o e => exact hplace.trans hon
  | pushed o e | popped => exact absurd (.inr rfl) hn
  | check l | check' l | xchg l | popcli =>
    simp only [Pc.pending] at hdepth
    omega
  | setcpu l | clear l =>
    have hl : l ∈ k.held := hplace
    rw [hheld] at hl
    cases hl
  | unlock l =>
    have hl : l ∈ k.held := hplace.1
    rw [hheld] at hl
    cases hl
  | resumed i => exact absurd (.inl hplace) hn
  | swtch i | fresh => exact absurd hplace id

/-- A step of the CPU `c` from and to a place where nothing is held. -/
theorem Inv.reopen (h : Inv s) {j : Cpu L} {vs : List (Pc L)} (hthread : j.thread = (s.cpu c).thread)
    (hh : (s.cpu c).held = []) (hh' : j.held = []) (hb' : j.bare = 0) (hn' : j.ncli = 0)
    (hv : v.Open) (hp : ∀ o e, v = .pushcli o e → e = j.iff) (hvs : ∀ w ∈ vs, w.Open) :
    Inv { s.setCpu c j with stack := Function.update s.stack (s.cpu c).thread (v :: vs) } := by
  set s' : Cpus L :=
    { s.setCpu c j with stack := Function.update s.stack (s.cpu c).thread (v :: vs) } with hs'
  have hok := h.cpu c
  have hself : s'.cpu c = j := Function.update_self _ _ _
  have hpc : s'.pc c = v := by
    rw [Cpus.pc, hself, hthread, hs']
    dsimp only
    rw [Function.update_self]
    rfl
  have hno : ∀ l, (s.lock l).cpu ≠ some c := fun l hl => by
    have hm := hok.held l hl
    rw [hh] at hm
    cases hm
  refine h.local ⟨fun d hd => Function.update_of_ne hd _ _, by rw [hself, hthread],
    fun t ht => Function.update_of_ne ht _ _, fun w hw => ?_, fun _ => .inl rfl, fun l hl => ?_,
    fun l hl => ?_, fun _ _ => rfl, fun p _ hn => ?_⟩ ?_
  · rw [hs'] at hw
    dsimp only at hw
    rw [Function.update_self] at hw
    exact hvs w hw
  · rw [hself, hh'] at hl
    cases hl
  · rw [hh]
    exact .inr ⟨List.not_mem_nil, hl⟩
  · rw [hself, hpc, hn'] at hn
    rcases hn with hn | rfl
    · omega
    · exact absurd hv id
  · rw [hself, hpc]
    have hempty : ∀ l, l ∉ j.held := fun l => by rw [hh']; exact List.not_mem_nil
    refine ⟨?_, fun hn => ?_, by rw [hh']; exact List.nodup_nil, fun l hl => absurd hl (hempty l),
      fun l hl => absurd hl (hempty l), fun l hl => absurd hl (hno l), ?_⟩
    · rw [hn', hh', hb']
      cases v <;> first | rfl | exact absurd hv id
    · rcases hn with hn | hn
      · omega
      · cases v with
        | pushed o e | popped => exact absurd hv id
        | _ => cases hn
    · cases v with
      | pushcli o e => exact hp o e rfl
      | run | holding l | holding' l => trivial
      | _ => exact absurd hv id

theorem interrupt_inv (h : Inv s) (hon : (s.cpu c).iff = true) :
    Inv { s.setCpu c { s.cpu c with iff := false } with
      stack := Function.update s.stack (s.cpu c).thread (.run :: s.stack (s.cpu c).thread) } := by
  obtain ⟨hopen, hh, hb, hn⟩ := (h.cpu c).open hon
  refine h.reopen rfl hh hh hb hn trivial (fun _ _ hv => by cases hv) fun w hw => ?_
  cases hs : s.stack (s.cpu c).thread with
  | nil =>
    rw [hs] at hw
    cases hw
  | cons v vs =>
    rw [hs] at hw
    have hpc : s.pc c = v := by rw [Cpus.pc, hs]; rfl
    rcases List.mem_cons.1 hw with rfl | hw
    · rwa [← hpc]
    · exact h.below _ w (by rwa [hs])

theorem iret_inv {vs : List (Pc L)} (h : Inv s) (hs : s.stack (s.cpu c).thread = .run :: v :: vs)
    (hh : (s.cpu c).held = []) (hb : (s.cpu c).bare = 0) :
    Inv { s.setCpu c { s.cpu c with iff := true } with
      stack := Function.update s.stack (s.cpu c).thread (v :: vs) } := by
  have hbelow := h.below (s.cpu c).thread
  rw [hs] at hbelow
  have hv : v.Open := hbelow v List.mem_cons_self
  have hpc : s.pc c = .run := by rw [Cpus.pc, hs]; rfl
  refine h.reopen rfl hh hh hb ((h.cpu c).idle hh hb (by rw [hpc]; rfl)) hv (fun o e hve => ?_)
    fun w hw => hbelow w (List.mem_cons_of_mem v hw)
  rw [hve] at hv
  exact hv

/-! ### Switches -/

theorem switch_stack {u : Thread} {x : Pc L} (hne : t ≠ u) :
    ((s.goto t v).goto u x).stack u = x :: (s.stack u).tail ∧
      ((s.goto t v).goto u x).stack t = v :: (s.stack t).tail ∧
      ∀ w, w ≠ u → w ≠ t → ((s.goto t v).goto u x).stack w = s.stack w := by
  unfold Cpus.goto
  dsimp only
  refine ⟨?_, ?_, fun w h₁ h₂ => ?_⟩
  · rw [Function.update_self, Function.update_of_ne hne.symm]
  · rw [Function.update_of_ne hne, Function.update_self]
  · rw [Function.update_of_ne h₁, Function.update_of_ne h₂]

/-- The CPU `c` leaves its thread at `v` and goes on at `x` in the thread `t`. -/
theorem Inv.switch {x : Pc L} (h : Inv s) (hv : s.pc c = .run) (hpos : 0 < (s.cpu c).ncli)
    (hidle : ∀ d, (s.cpu d).thread ≠ t) (hhome : ∀ d, t = .scheduler d → c = d)
    (hcpu : s'.cpu = Function.update s.cpu c { s.cpu c with thread := t })
    (hframes : s'.stack = ((s.goto (s.cpu c).thread v).goto t x).stack) (hlock : s'.lock = s.lock)
    (hwas : ∀ u, u ≠ t → s'.was u = s.was u) (hv' : x = .run ∨ ∃ i, x = .resumed i)
    (hsaved : ∀ p i, (s.cpu c).thread = .proc p → v = .swtch i → i = s.was (.proc p))
    (hflags : ∀ p, t = .proc p → x.Restores (s.cpu c).intena (s'.was (.proc p))) : Inv s' := by
  have hst := switch_stack (s := s) (v := v) (x := x) (hidle c)
  rw [← hframes] at hst
  obtain ⟨hto, hfrom, hstack⟩ := hst
  have hok := h.cpu c
  rw [hv] at hok
  have hself : s'.cpu c = { s.cpu c with thread := t } := by rw [hcpu, Function.update_self]
  have hother : ∀ d, d ≠ c → s'.cpu d = s.cpu d := fun d hd => by rw [hcpu, Function.update_of_ne hd]
  have hpcc : s'.pc c = x := by
    unfold Cpus.pc
    rw [hself]
    dsimp only
    rw [hto]
    rfl
  have hpc : ∀ d, d ≠ c → s'.pc d = s.pc d := fun d hd => by
    unfold Cpus.pc
    rw [hother d hd, hstack _ (hidle d) fun ht => hd (h.threads d c ht)]
  have hheld : ∀ d, (s'.cpu d).held = (s.cpu d).held := fun d => by
    by_cases hd : d = c
    · rw [hd, hself]
    · rw [hother d hd]
  refine ⟨fun d => ?_, fun d e l hd he => ?_, fun l hl => ?_, fun d e hde => ?_, fun d e hde => ?_,
    fun u w hw => ?_, fun d p hd hn => ?_, fun p i hi => ?_⟩
  · by_cases hd : d = c
    · rw [hd, hself, hpcc, hlock]
      have howner : ∀ l ∈ (s.cpu c).held, (s.lock l).cpu = some c := fun l hl =>
        hok.owner l hl (by simp) (by simp)
      rcases hv' with rfl | ⟨i, rfl⟩
      · exact ⟨hok.depth, hok.off, hok.nodup, hok.locked, fun l hl _ _ => howner l hl, hok.held, trivial⟩
      · exact ⟨hok.depth, hok.off, hok.nodup, hok.locked, fun l hl _ _ => howner l hl, hok.held, hpos⟩
    · rw [hother d hd, hpc d hd, hlock]
      exact h.cpu d
  · rw [hheld] at hd he
    exact h.apart d e l hd he
  · rw [hlock] at hl
    exact (h.taken l hl).imp fun d hd => by rwa [hheld]
  · by_cases hd : d = c
    · by_cases he : e = c
      · rw [hd, he]
      · rw [hd, hself, hother e he] at hde
        exact absurd hde.symm (hidle e)
    · by_cases he : e = c
      · rw [he, hself, hother d hd] at hde
        exact absurd hde (hidle d)
      · rw [hother d hd, hother e he] at hde
        exact h.threads d e hde
  · by_cases hd : d = c
    · rw [hd, hself] at hde
      rw [hd]
      exact hhome e hde
    · rw [hother d hd] at hde
      exact h.home d e hde
  · by_cases hu : u = t
    · rw [hu, hto] at hw
      exact h.below t w hw
    · by_cases hu' : u = (s.cpu c).thread
      · rw [hu', hfrom] at hw
        exact h.below _ w hw
      · rw [hstack u hu hu'] at hw
        exact h.below u w hw
  · by_cases hdc : d = c
    · rw [hdc, hself] at hd
      rw [hdc, hself, hpcc]
      exact hflags p hd
    · rw [hother d hdc] at hd hn ⊢
      rw [hpc d hdc] at hn ⊢
      rw [hwas _ fun hp => hidle d (hd.trans hp)]
      exact h.flags d p hd hn
  · by_cases hp : .proc p = t
    · rw [hp, hto] at hi
      rcases hv' with rfl | ⟨j, rfl⟩ <;> cases hi
    · rw [hwas _ hp]
      by_cases hp' : .proc p = (s.cpu c).thread
      · rw [hp', hfrom] at hi
        exact hsaved p i hp'.symm hi
      · rw [hstack _ hp hp'] at hi
        exact h.saved p i hi

/-- A process in `swtch` is on no CPU, so its slot can be used again. -/
theorem spawn_inv {i : Bool} (h : Inv s) (hi : (s.stack (.proc p)).headD .run = .swtch i) :
    Inv { s with stack := Function.update s.stack (.proc p) [.fresh] } := by
  set s' : Cpus L := { s with stack := Function.update s.stack (.proc p) [.fresh] } with hs'
  have hidle : ∀ d, (s.cpu d).thread ≠ .proc p := fun d hp => by
    have hplace := (h.cpu d).place
    rw [Cpus.pc, hp, hi] at hplace
    exact hplace
  have hpc : ∀ d, s'.pc d = s.pc d := fun d => by
    unfold Cpus.pc
    rw [hs']
    dsimp only
    rw [Function.update_of_ne (hidle d)]
  refine ⟨fun d => ?_, h.apart, h.taken, h.threads, h.home, fun u w hw => ?_, fun d q hd hn => ?_,
    fun q j hj => ?_⟩
  · rw [hpc]
    exact h.cpu d
  · rw [hs'] at hw
    by_cases hu : u = .proc p
    · rw [hu] at hw
      dsimp only at hw
      rw [Function.update_self] at hw
      cases hw
    · dsimp only at hw
      rw [Function.update_of_ne hu] at hw
      exact h.below u w hw
  · rw [hpc] at hn ⊢
    exact h.flags d q hd hn
  · rw [hs'] at hj
    by_cases hq : Thread.proc q = .proc p
    · dsimp only at hj
      rw [hq, Function.update_self] at hj
      cases hj
    · dsimp only at hj
      rw [Function.update_of_ne hq] at hj
      exact h.saved q j hj

theorem dispatch_inv {s' : Cpus L} (h : Inv s) (ht : (s.cpu c).thread = .scheduler c)
    (hv : s.pc c = .run) (hheld : (s.cpu c).held = [ptable]) (hd : s.dispatch c p = some s') :
    Inv s' := by
  have hpos : 0 < (s.cpu c).ncli := (h.cpu c).ncli_pos (l := ptable) (by rw [hheld]; simp)
  -- a process at `swtch` or `forkret` is on no CPU
  have hidle : ∀ d, ¬ Pc.Place s.lock (s.cpu d) ((s.stack (.proc p)).headD .run) →
      (s.cpu d).thread ≠ .proc p := fun d hno hp => by
    have hplace := (h.cpu d).place
    rw [Cpus.pc, hp] at hplace
    exact hno hplace
  unfold Cpus.dispatch at hd
  dsimp only at hd
  split at hd
  · next i hi =>
    rw [hi] at hidle
    obtain rfl := Option.some.inj hd
    refine h.switch (v := .swtch (s.cpu c).intena) (x := .resumed i) hv hpos (fun d => hidle d id)
      (fun d hd => by cases hd) rfl (by rw [ht]; rfl) rfl (fun _ _ => rfl) (.inr ⟨i, rfl⟩)
      (fun q j hq => by rw [ht] at hq; cases hq) fun q hq => ?_
    rw [← Thread.proc.inj hq]
    exact h.saved p i hi
  · next hi =>
    rw [hi] at hidle
    obtain rfl := Option.some.inj hd
    refine h.switch (v := .swtch (s.cpu c).intena) (x := .run) hv hpos (fun d => hidle d id)
      (fun d hd => by cases hd) rfl (by rw [ht]; rfl) rfl (fun u hu => ?_) (.inl rfl)
      (fun q j hq => by rw [ht] at hq; cases hq) fun q hq => ?_
    · exact Function.update_of_ne hu _ _
    · rw [← Thread.proc.inj hq]
      dsimp only [Pc.Restores]
      rw [Function.update_self]
  · cases hd

theorem Inv.mycpu {s' : Cpus L} (h : Inv s) (h' : Inv s') : Inv (s.mycpu c s') := by
  unfold Cpus.mycpu
  split_ifs
  · exact h.panic _
  · exact h'

theorem call_inv (h : Inv s) (hv : s.pc c = .run) (hp : v.pending = 0) (hm : v.masked = false)
    (hvr : ∀ i, v ≠ .resumed i) (hn : v ≠ .popped) (hpl : v.Place s.lock (s.cpu c)) :
    Inv (s.goto (s.cpu c).thread v) :=
  go_on h (by rw [hp, hv]; rfl) hm (by simp [hv]) (by simp [hv]) (by simp [hv]) hn hvr hpl

theorem inv_start : Inv (cpusStart L) where
  cpu c := by
    have hpc : (cpusStart L).pc c = .run := rfl
    rw [hpc]
    exact ⟨rfl, fun _ => rfl, List.nodup_nil, fun l hl => (by cases hl), fun l hl => (by cases hl),
      fun l hl => (by cases hl), trivial⟩
  apart c d l hl := by cases hl
  taken l hl := by cases hl
  threads c d ht := Thread.scheduler.inj ht
  home c d ht := Thread.scheduler.inj ht
  below t v hv := by cases t <;> cases hv
  flags c p ht := by cases ht
  saved p i hi := by cases hi

section Ptable

variable [DecidableEq L] {running : Bool}

/-- What `sched` does: it panics, or it switches. -/
theorem sched_cases (ptable : L) (h : Inv s) (hv : s.pc c = .run) :
    (((s.cpu c).held ≠ [ptable] ∨ (s.cpu c).bare ≠ 0 ∨ running = true) ∧
        ∃ m, s.sched ptable c p running = s.panic m) ∨
      (s.cpu c).held = [ptable] ∧ (s.cpu c).bare = 0 ∧ running = false ∧ s.sched ptable c p running =
        ((s.goto (.proc p) (.swtch (s.cpu c).intena)).goto (.scheduler c) .run).setCpu c
          { s.cpu c with thread := .scheduler c } := by
  have hok := h.cpu c
  rw [hv] at hok
  have hdepth : (s.cpu c).ncli = (s.cpu c).held.length + (s.cpu c).bare + (0 : ℕ) := hok.depth
  by_cases hp : (s.cpu c).held = [ptable] ∧ (s.cpu c).bare = 0
  swap
  · refine .inl ⟨(not_and_or.1 hp).imp_right .inl, ?_⟩
    unfold Cpus.sched Cpus.mycpu
    dsimp only
    split_ifs with h1 h2 h3 h4 h5
    · exact ⟨_, rfl⟩
    · exact ⟨_, rfl⟩
    · exact ⟨_, rfl⟩
    · exact ⟨_, rfl⟩
    · exact ⟨_, rfl⟩
    · -- one lock is held, and it is `ptable.lock`
      have hl := hok.held ptable (not_not.1 h3)
      have hlen := List.length_pos_of_mem hl
      obtain ⟨m, hm⟩ := List.length_eq_one_iff.1 (show (s.cpu c).held.length = 1 by omega)
      rw [hm, List.mem_singleton] at hl
      exact absurd ⟨by rw [hm, hl], by omega⟩ hp
  have hl : ptable ∈ (s.cpu c).held := by rw [hp.1]; exact List.mem_singleton_self _
  have hoff := hok.off (.inl (hok.ncli_pos hl))
  -- the checks before that of the state succeed
  have hcall : s.sched ptable c p running =
      if running = true then s.panic "sched running"
      else ((s.goto (.proc p) (.swtch (s.cpu c).intena)).goto (.scheduler c) .run).setCpu c
        { s.cpu c with thread := .scheduler c } := by
    unfold Cpus.sched
    dsimp only
    rw [if_neg (by rw [hok.locked _ hl]; decide), mycpu_eq hoff,
      if_neg (fun hno => hno (hok.owner _ hl (by simp) (by simp))),
      if_neg (fun hno => hno (by rw [hdepth, hp.1, hp.2]; rfl)),
      if_neg (show ¬ (s.cpu c).iff = true by rw [hoff]; decide)]
  cases running with
  | true => exact .inl ⟨.inr (.inr rfl), _, hcall⟩
  | false => exact .inr ⟨hp.1, hp.2, rfl, hcall⟩

theorem sched_inv (ptable : L) (h : Inv s) (ht : (s.cpu c).thread = .proc p) (hv : s.pc c = .run) :
    Inv (s.sched ptable c p running) := by
  rcases sched_cases ptable h hv with ⟨-, m, hm⟩ | ⟨hheld, -, -, heq⟩
  · rw [hm]
    exact h.panic m
  have hne : Thread.proc p ≠ .scheduler c := by simp
  have hpos : 0 < (s.cpu c).ncli := (h.cpu c).ncli_pos (l := ptable) (by rw [hheld]; simp)
  have hidle : ∀ d, (s.cpu d).thread ≠ .scheduler c := fun d hd => by
    rw [h.home d c hd, ht] at hd
    exact hne hd
  rw [heq]
  refine h.switch (v := .swtch (s.cpu c).intena) (x := .run) hv hpos hidle
    (fun d hd => Thread.scheduler.inj hd) rfl (by rw [ht]; rfl) rfl (fun _ _ => rfl) (.inl rfl)
    (fun q i hq hi => ?_) fun q hq => by cases hq
  rw [← Pc.swtch.inj hi]
  exact h.intena (by simp [hv]) hq (.inl hpos)

theorem go_inv (h : Inv s) (hs : s.go c (s.pc c) = some s') : Inv s' := by
  have hok := h.cpu c
  -- outside `acquire` and `release` the field `cpu` of a lock says whether the CPU holds it
  have hmine : ∀ l, s.pc c ≠ .setcpu l → s.pc c ≠ .unlock l →
      ((s.lock l).cpu = some c ↔ l ∈ (s.cpu c).held) := fun l h1 h2 =>
    ⟨hok.held l, fun hl => hok.owner l hl h1 h2⟩
  cases hv : s.pc c with
  | run | swtch i | fresh =>
    rw [hv] at hs
    cases hs
  | pushcli o e =>
    rw [hv] at hs
    obtain rfl := Option.some.inj hs
    exact go_pushcli h hv
  | pushed o e =>
    rw [hv] at hs
    obtain rfl := Option.some.inj hs
    exact h.mycpu (go_pushed h hv)
  | check l =>
    rw [hv] at hs
    obtain rfl := Option.some.inj hs
    split_ifs with hlk
    · exact go_on h (by rw [hv]; rfl) rfl (by simp [hv]) (by simp [hv]) (by simp [hv]) (by simp)
        (by simp) trivial
    · exact go_on h (by rw [hv]; rfl) rfl (by simp [hv]) (by simp [hv]) (by simp [hv]) (by simp)
        (by simp) fun hl => hlk (hok.locked l hl)
  | check' l =>
    rw [hv] at hs
    obtain rfl := Option.some.inj hs
    refine h.mycpu ?_
    split_ifs with hcpu
    · exact h.panic _
    · exact go_on h (by rw [hv]; rfl) rfl (by simp [hv]) (by simp [hv]) (by simp [hv]) (by simp)
        (by simp) fun hl => hcpu ((hmine l (by simp [hv]) (by simp [hv])).2 hl)
  | xchg l =>
    rw [hv] at hs
    unfold Cpus.go at hs
    dsimp only at hs
    split_ifs at hs with hlk
    · rwa [← Option.some.inj hs]
    · obtain rfl := Option.some.inj hs
      exact go_xchg h hv (Bool.eq_false_iff.2 hlk)
  | setcpu l =>
    rw [hv] at hs
    obtain rfl := Option.some.inj hs
    exact h.mycpu (go_setcpu h hv)
  | holding l =>
    rw [hv] at hs
    obtain rfl := Option.some.inj hs
    split_ifs with hlk
    · exact go_on h (by rw [hv]; rfl) rfl (by simp [hv]) (by simp [hv]) (by simp [hv]) (by simp)
        (by simp) trivial
    · exact h.panic _
  | holding' l =>
    rw [hv] at hs
    obtain rfl := Option.some.inj hs
    refine h.mycpu ?_
    split_ifs with hcpu
    · exact go_on h (by rw [hv]; rfl) rfl (by simp [hv]) (by simp [hv]) (by simp [hv]) (by simp)
        (by simp) ((hmine l (by simp [hv]) (by simp [hv])).1 hcpu)
    · exact h.panic _
  | clear l =>
    rw [hv] at hs
    obtain rfl := Option.some.inj hs
    exact go_clear h hv
  | unlock l =>
    rw [hv] at hs
    obtain rfl := Option.some.inj hs
    exact go_unlock h hv
  | popcli =>
    rw [hv] at hs
    obtain rfl := Option.some.inj hs
    exact (go_popcli h hv).2
  | popped =>
    rw [hv] at hs
    obtain rfl := Option.some.inj hs
    exact h.mycpu (go_popped h hv)
  | resumed i =>
    rw [hv] at hs
    obtain rfl := Option.some.inj hs
    exact h.mycpu (go_resumed h hv)

theorem inv_step (ptable : L) (s : Cpus L) (e : CpuEvent L) (s' : Cpus L) (h : Inv s)
    (hs : cpuStep ptable e s = some s') : Inv s' := by
  unfold cpuStep at hs
  split_ifs at hs
  cases e with
  | go c => exact go_inv h hs
  | acquire c l =>
    dsimp only at hs
    split_ifs at hs with hv
    obtain rfl := Option.some.inj hs
    exact call_inv h hv rfl rfl (by simp) (by simp) rfl
  | release c l =>
    dsimp only at hs
    split_ifs at hs with hv
    obtain rfl := Option.some.inj hs
    exact call_inv h hv rfl rfl (by simp) (by simp) trivial
  | pushcli c =>
    dsimp only at hs
    split_ifs at hs with hv
    obtain rfl := Option.some.inj hs
    exact call_inv h hv rfl rfl (by simp) (by simp) rfl
  | popcli c =>
    dsimp only at hs
    split_ifs at hs with hv
    obtain rfl := Option.some.inj hs
    exact popcli_inv h hv.1 hv.2
  | sti c =>
    dsimp only at hs
    split_ifs at hs with hv
    obtain rfl := Option.some.inj hs
    exact flag_inv h hv.1 fun _ => hv.2
  | cli c =>
    dsimp only at hs
    split_ifs at hs with hv
    obtain rfl := Option.some.inj hs
    exact flag_inv h hv fun hon => by cases hon
  | interrupt c =>
    dsimp only at hs
    split_ifs at hs with hon
    obtain rfl := Option.some.inj hs
    exact interrupt_inv h hon
  | iret c =>
    dsimp only at hs
    split at hs
    · next v vs hstack =>
      split_ifs at hs with hv
      obtain rfl := Option.some.inj hs
      exact iret_inv h hstack hv.1 hv.2
    · cases hs
  | sched c running =>
    dsimp only at hs
    split at hs
    · next p ht =>
      split_ifs at hs with hv
      obtain rfl := Option.some.inj hs
      exact sched_inv ptable h ht hv
    · cases hs
  | dispatch c p =>
    dsimp only at hs
    split_ifs at hs with hv
    exact dispatch_inv h hv.1 hv.2.1 hv.2.2.1 hs
  | spawn p =>
    dsimp only at hs
    split at hs
    · next i hi =>
      obtain rfl := Option.some.inj hs
      exact spawn_inv h hi
    · cases hs

end Ptable

end Steps

/-! ## The results -/

/-- What the locks are for. -/
structure Safe (s : Cpus L) : Prop where
  /-- Mutual exclusion. -/
  exclusive : ∀ c d l, l ∈ (s.cpu c).held → l ∈ (s.cpu d).held → c = d
  once : ∀ c, (s.cpu c).held.Nodup
  locked : ∀ l, (s.lock l).locked = true ↔ ∃ c, l ∈ (s.cpu c).held
  /-- Between the two accesses of `acquire`, or of `release`, the lock has no owner. -/
  holding : ∀ c l, s.pc c ≠ .setcpu l → s.pc c ≠ .unlock l →
    ((s.lock l).holding c = true ↔ l ∈ (s.cpu c).held)
  /-- No interrupt comes between `acquire` and `release`, nor between `pushcli` and `popcli`. -/
  quiet : ∀ c, (s.cpu c).held ≠ [] ∨ 0 < (s.cpu c).bare → (s.cpu c).iff = false
  /-- No CPU spins on a lock that it holds. -/
  spins : ∀ c l, s.pc c = .xchg l → l ∉ (s.cpu c).held
  /-- What `pushcli` has read is not out of date, whatever came in between. -/
  read : ∀ c o e, s.pc c = .pushcli o e → (s.cpu c).iff = e
  /-- The last `popcli` restores what the first `pushcli` found, perhaps on another CPU. -/
  restored : ∀ c p, (s.cpu c).thread = .proc p → s.pc c = .popped → (s.cpu c).ncli = 0 →
    (s.cpu c).intena = s.was (.proc p)

theorem Inv.safe {s : Cpus L} (h : Inv s) : Safe s where
  exclusive := h.apart
  once c := (h.cpu c).nodup
  locked l := ⟨h.taken l, fun ⟨c, hl⟩ => (h.cpu c).locked l hl⟩
  holding c l h1 h2 := by
    rw [Spinlock.holding_iff]
    exact ⟨fun hl => (h.cpu c).held l hl.2, fun hl =>
      ⟨(h.cpu c).locked l hl, (h.cpu c).owner l hl h1 h2⟩⟩
  quiet c hc := by
    refine (h.cpu c).off (.inl ?_)
    have hdepth := (h.cpu c).depth
    rcases hc with hc | hc
    · have := List.length_pos_of_ne_nil hc
      omega
    · omega
  spins c l hv := by
    have hplace := (h.cpu c).place
    rw [hv] at hplace
    exact hplace
  read c o e hv := by
    have hplace := (h.cpu c).place
    rw [hv] at hplace
    exact hplace.symm
  restored c p hp hv _ := h.intena (by simp [hv]) hp (.inr hv)

theorem fine {P : Prop} {s s' : Cpus L} (hn : s.panicked = none) (hs : s'.panicked = s.panicked)
    (hP : ¬ P) : s'.panicked ≠ none ↔ P :=
  ⟨fun hne => absurd (hs.trans hn) hne, fun h => absurd h hP⟩

theorem panics {P : Prop} {s : Cpus L} (m : String) (hP : P) : (s.panic m).panicked ≠ none ↔ P :=
  ⟨fun _ => hP, fun _ => by simp [Cpus.panic]⟩

variable [DecidableEq L]

/-- **The locks are safe in every run.** -/
theorem locks_run (ptable : L) (es : List (CpuEvent L)) :
    Throughout (cpuStep ptable) Safe es (cpusStart L) :=
  (throughout_of_inv (inv_step ptable) inv_start).mono fun _ => Inv.safe

/-- A process that has called `acquire` with interrupts on goes on on another CPU, where they were off
until it calls `release`. -/
example : ((run (cpuStep ())
    (.acquire 0 () :: .replicate 5 (.go 0) ++ .dispatch 0 7 :: .release 0 () :: .replicate 6 (.go 0) ++
      .sti 0 :: .acquire 0 () :: .replicate 5 (.go 0) ++ .sched 0 false :: .release 0 () ::
      .replicate 6 (.go 0) ++ .acquire 1 () :: .replicate 5 (.go 1) ++ .dispatch 1 7 :: .go 1 ::
      .release 1 () :: .replicate 6 (.go 1)) (cpusStart Unit)).map fun s =>
        ((s.cpu 1).thread, (s.cpu 1).iff)) = some (.proc 7, true) := by decide +kernel

/-- What the kernel must not do. -/
def Misuse (ptable : L) (s : Cpus L) : CpuEvent L → Prop
  | .go c => (∃ l, s.pc c = .check' l ∧ l ∈ (s.cpu c).held) ∨
      (∃ l, s.pc c = .holding l ∧ ∀ d, l ∉ (s.cpu d).held) ∨
      ∃ l, s.pc c = .holding' l ∧ l ∉ (s.cpu c).held
  | .sched c running => (s.cpu c).held ≠ [ptable] ∨ (s.cpu c).bare ≠ 0 ∨ running = true
  | _ => False

section Panics

variable {c : ℕ} {s s' : Cpus L} {v : Pc L}

omit [DecidableEq L] in
/-- The field `cpu` of a lock is the CPU that holds it, except while it is being written. -/
theorem Inv.cpu_iff {l : L} (h : Inv s) (hset : s.pc c ≠ .setcpu l) (hun : s.pc c ≠ .unlock l) :
    (s.lock l).cpu = some c ↔ l ∈ (s.cpu c).held :=
  ⟨(h.cpu c).held l, fun hl => (h.cpu c).owner l hl hset hun⟩

omit [DecidableEq L] in
theorem not_misuse {ptable : L} (h₁ : ∀ l, s.pc c ≠ .check' l) (h₂ : ∀ l, s.pc c ≠ .holding l)
    (h₃ : ∀ l, s.pc c ≠ .holding' l) : ¬ Misuse ptable s (.go c) := by
  rintro (⟨l, hl, -⟩ | ⟨l, hl, -⟩ | ⟨l, hl, -⟩)
  exacts [h₁ l hl, h₂ l hl, h₃ l hl]

/-- `acquire` panics on a lock that its CPU holds. -/
theorem check_panic {l : L} (ptable : L) (h : Inv s) (hn : s.panicked = none)
    (hv : s.pc c = .check' l) (hs : s.go c (.check' l) = some s') :
    s'.panicked ≠ none ↔ Misuse ptable s (.go c) := by
  have hok := h.cpu c
  rw [hv] at hok
  obtain rfl := Option.some.inj hs
  have hdepth : (s.cpu c).ncli = (s.cpu c).held.length + (s.cpu c).bare + (1 : ℕ) := hok.depth
  rw [mycpu_eq (hok.off (.inl (by omega)))]
  have hl := h.cpu_iff (c := c) (l := l) (by simp [hv]) (by simp [hv])
  split_ifs with hcpu
  · exact panics _ (.inl ⟨l, hv, hl.1 hcpu⟩)
  · refine fine hn rfl ?_
    rintro (⟨l', hl', hmem⟩ | ⟨l', hl', -⟩ | ⟨l', hl', -⟩)
    · rw [hv] at hl'
      rw [← Pc.check'.inj hl'] at hmem
      exact hcpu (hl.2 hmem)
    · simp [hv] at hl'
    · simp [hv] at hl'

/-- `release` panics on a lock that nobody holds. -/
theorem holding_panic {l : L} (ptable : L) (h : Inv s) (hn : s.panicked = none)
    (hv : s.pc c = .holding l) (hs : s.go c (.holding l) = some s') :
    s'.panicked ≠ none ↔ Misuse ptable s (.go c) := by
  obtain rfl := Option.some.inj hs
  split_ifs with hlk
  · refine fine hn rfl ?_
    rintro (⟨l', hl', -⟩ | ⟨l', hl', hno⟩ | ⟨l', hl', -⟩)
    · simp [hv] at hl'
    · rw [hv] at hl'
      obtain ⟨d, hd⟩ := h.taken l hlk
      rw [← Pc.holding.inj hl'] at hno
      exact hno d hd
    · simp [hv] at hl'
  · exact panics _ (.inr (.inl ⟨l, hv, fun d hd => hlk ((h.cpu d).locked l hd)⟩))

/-- It panics on a lock that another CPU holds. -/
theorem holding'_panic {l : L} (ptable : L) (h : Inv s) (hn : s.panicked = none)
    (hv : s.pc c = .holding' l) (hs : s.go c (.holding' l) = some s') :
    s'.panicked ≠ none ↔ Misuse ptable s (.go c) := by
  have hok := h.cpu c
  obtain rfl := Option.some.inj hs
  have hl := h.cpu_iff (c := c) (l := l) (by simp [hv]) (by simp [hv])
  by_cases hmem : l ∈ (s.cpu c).held
  · rw [mycpu_eq (hok.off (.inl (hok.ncli_pos hmem))), if_pos (hl.2 hmem)]
    refine fine hn rfl ?_
    rintro (⟨l', hl', -⟩ | ⟨l', hl', -⟩ | ⟨l', hl', hno⟩)
    · simp [hv] at hl'
    · simp [hv] at hl'
    · rw [hv] at hl'
      rw [← Pc.holding'.inj hl'] at hno
      exact hno hmem
  · rw [if_neg (hmem ∘ hl.1)]
    have hmis : Misuse ptable s (.go c) := .inr (.inr ⟨l, hv, hmem⟩)
    -- with interrupts on it is `mycpu` that panics
    unfold Cpus.mycpu
    split_ifs
    · exact panics _ hmis
    · exact panics _ hmis

theorem go_panic (ptable : L) (h : Inv s) (hn : s.panicked = none)
    (hs : s.go c (s.pc c) = some s') : s'.panicked ≠ none ↔ Misuse ptable s (.go c) := by
  have hok := h.cpu c
  cases hv : s.pc c with
  | run | swtch i | fresh =>
    rw [hv] at hs
    cases hs
  | pushcli o e =>
    rw [hv] at hs
    obtain rfl := Option.some.inj hs
    exact fine hn rfl (not_misuse (by simp [hv]) (by simp [hv]) (by simp [hv]))
  | pushed o e =>
    rw [hv] at hs
    obtain rfl := Option.some.inj hs
    rw [mycpu_eq (hok.off (.inr (by rw [hv]; rfl)))]
    refine fine hn ?_ (not_misuse (by simp [hv]) (by simp [hv]) (by simp [hv]))
    cases o <;> rfl
  | check l =>
    rw [hv] at hs
    obtain rfl := Option.some.inj hs
    exact fine hn rfl (not_misuse (by simp [hv]) (by simp [hv]) (by simp [hv]))
  | check' l =>
    rw [hv] at hs
    exact check_panic ptable h hn hv hs
  | xchg l =>
    rw [hv] at hs
    refine fine hn ?_ (not_misuse (by simp [hv]) (by simp [hv]) (by simp [hv]))
    unfold Cpus.go at hs
    dsimp only at hs
    split_ifs at hs with hlk
    · rw [← Option.some.inj hs]
    · rw [← Option.some.inj hs]
      rfl
  | setcpu l =>
    rw [hv] at hs hok
    obtain rfl := Option.some.inj hs
    rw [mycpu_eq (hok.off (.inl (hok.ncli_pos hok.place)))]
    exact fine hn rfl (not_misuse (by simp [hv]) (by simp [hv]) (by simp [hv]))
  | holding l =>
    rw [hv] at hs
    exact holding_panic ptable h hn hv hs
  | holding' l =>
    rw [hv] at hs
    exact holding'_panic ptable h hn hv hs
  | clear l =>
    rw [hv] at hs
    obtain rfl := Option.some.inj hs
    exact fine hn rfl (not_misuse (by simp [hv]) (by simp [hv]) (by simp [hv]))
  | unlock l =>
    rw [hv] at hs
    obtain rfl := Option.some.inj hs
    exact fine hn rfl (not_misuse (by simp [hv]) (by simp [hv]) (by simp [hv]))
  | popcli =>
    rw [hv] at hs
    obtain rfl := Option.some.inj hs
    rw [(go_popcli h hv).1]
    exact fine hn rfl (not_misuse (by simp [hv]) (by simp [hv]) (by simp [hv]))
  | popped =>
    rw [hv] at hs
    obtain rfl := Option.some.inj hs
    rw [mycpu_eq (hok.off (.inr (by rw [hv]; rfl)))]
    exact fine hn rfl (not_misuse (by simp [hv]) (by simp [hv]) (by simp [hv]))
  | resumed i =>
    rw [hv] at hs hok
    obtain rfl := Option.some.inj hs
    rw [mycpu_eq (hok.off (.inl hok.place))]
    exact fine hn rfl (not_misuse (by simp [hv]) (by simp [hv]) (by simp [hv]))

theorem step_panic (ptable : L) (s : Cpus L) (e : CpuEvent L) (s' : Cpus L) (h : Inv s)
    (hs : cpuStep ptable e s = some s') : s'.panicked ≠ none ↔ Misuse ptable s e := by
  unfold cpuStep at hs
  split_ifs at hs with hn
  rw [not_not] at hn
  cases e with
  | go c => exact go_panic ptable h hn hs
  | acquire c l | release c l | pushcli c | popcli c | sti c | cli c | interrupt c =>
    dsimp only at hs
    split_ifs at hs with hv
    rw [← Option.some.inj hs]
    exact fine hn rfl id
  | iret c =>
    dsimp only at hs
    split at hs
    · split_ifs at hs with hv
      rw [← Option.some.inj hs]
      exact fine hn rfl id
    · cases hs
  | sched c running =>
    dsimp only at hs
    split at hs
    · next p ht =>
      split_ifs at hs with hv
      rw [← Option.some.inj hs]
      rcases sched_cases (p := p) ptable h hv with ⟨hmis, m, hm⟩ | ⟨hheld, hbare, hrun, heq⟩
      · rw [hm]
        exact panics m hmis
      · rw [heq]
        refine fine hn rfl ?_
        rintro (hmis | hmis | hmis)
        · exact hmis hheld
        · exact hmis hbare
        · rw [hrun] at hmis
          cases hmis
    · cases hs
  | dispatch c p =>
    dsimp only at hs
    split_ifs at hs with hv
    refine fine hn ?_ id
    unfold Cpus.dispatch at hs
    dsimp only at hs
    split at hs
    · rw [← Option.some.inj hs]
      rfl
    · rw [← Option.some.inj hs]
      rfl
    · cases hs
  | spawn p =>
    dsimp only at hs
    split at hs
    · rw [← Option.some.inj hs]
      exact fine hn rfl id
    · cases hs

end Panics

/-- **In every run, a step panics exactly when a lock is misused**: nothing else can make a check of
these functions fail, whatever interrupts and switches come in between. -/
theorem locks_panic (ptable : L) (es : List (CpuEvent L)) :
    Along (cpuStep ptable) (fun s e s' => s'.panicked ≠ none ↔ Misuse ptable s e) es (cpusStart L) :=
  along_of_inv (inv_step ptable) (step_panic ptable) inv_start

end Locks

end OsPlayground
