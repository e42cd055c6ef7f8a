import OsPlayground.Console.Windows
import OsPlayground.Vm.Shared

/-!
# Index arguments

`sys_getsharem`, `sys_releasesharem` and `sys_split` pass an argument of the user on as an index.

* `sysGetsharem`, `sysReleasesharem`, `splitwAt`: as the code does it; an access past the end of a
  table ends the run.
* `IndexCall.Safe`: what a call should do; `IndexCall.Fits`: a condition on its argument.
* **`safe_iff_fits`**: in every reachable state a call is safe if and only if its argument fits.
-/

namespace OsPlayground

open Lib

/-! ## The code -/

/-- `sys_getsharem` by the process `p`: the `int` becomes a `uint`. -/
def sysGetsharem (p : ℕ) (idx : BitVec 32) (s : Sharing) : Except Fault (Sharing × ℕ) :=
  if idx = 1 then
    match s.getshared p 0 with
    | .error e => .error e
    | .ok (s, _) => s.getshared p idx.toNat
  else s.getshared p idx.toNat

/-- `sys_releasesharem` by the process `p`. -/
def sysReleasesharem (p : ℕ) (idx : BitVec 32) (s : Sharing) : Except Fault Sharing :=
  s.releaseshared p idx.toNat

/-- `splitw`, with the indices into `crtflags`, `crtbufs` and `poss` checked. -/
def splitwAt (n : ℤ) (p : Caller) (s : Cga) : Except Fault Cga :=
  if n = -1 then
    match (List.range MAXWINDOWS).find? fun i => !s.crtflags i with
    | none => .ok (s.splitw n p)
    | some _ => if MAXWINDOWS ≤ s.curidx then .error (.outside s.curidx) else .ok (s.splitw n p)
  else if 0 ≤ n then
    if MAXWINDOWS ≤ n.toNat then .error (.outside n.toNat)
    else if s.crtflags n.toNat = true ∧ MAXWINDOWS ≤ s.curidx then .error (.outside s.curidx)
    else .ok (s.splitw n p)
  else .ok (s.splitw n p)

/-- The two tables that a number given by a process is an index of. -/
structure Tables where
  shm : Sharing
  cga : Cga

/-- A call by a process. -/
inductive IndexCall
  | getsharem (p : ℕ) (idx : BitVec 32)
  | releasesharem (p : ℕ) (idx : BitVec 32)
  | split (p : Caller) (n : BitVec 32)

/-- The call, or the fault that it makes. -/
def IndexCall.run : IndexCall → Tables → Except Fault Tables
  | .getsharem p idx, s => (sysGetsharem p idx s.shm).map fun r => { s with shm := r.1 }
  | .releasesharem p idx, s => (sysReleasesharem p idx s.shm).map fun r => { s with shm := r }
  | .split p n, s => (splitwAt n.toInt p s.cga).map fun r => { s with cga := r }

/-- A call, an output, the title at a timer interrupt, or whatever else the kernel does with memory
and shared pages. -/
inductive TablesEvent
  | call (c : IndexCall)
  | putc (c : ℤ)
  | title (p : Caller)
  | other (shm : Sharing)

/-- One step, or `none` when the kernel stops. -/
def tablesStep : TablesEvent → Tables → Option Tables
  | .call c, s => (c.run s).toOption
  | .putc c, s => (s.cga.cgaputc c).map fun r => { s with cga := r }
  | .title p, s => some { s with cga := s.cga.title p }
  | .other shm, s => some { s with shm := shm }

/-! ## Safe calls -/

namespace IndexCall

/-- The argument names an entry, or is the `-1` that asks for a new window. -/
def InRange : IndexCall → Prop
  | .getsharem _ idx => idx.toNat < MAXSHAREDPG
  | .releasesharem _ idx => idx.toNat < MAXSHAREDPG
  | .split _ n => n.toInt = -1 ∨ 0 ≤ n.toInt ∧ n.toInt < MAXWINDOWS

/-- The call stays in the tables and in the window, and does nothing with an argument out of
range. -/
structure Safe (c : IndexCall) (s : Tables) : Prop where
  inside : ∀ i, c.run s ≠ .error (.outside i)
  window : ∀ t, c.run s = .ok t → ∀ p v,
    (t.shm.procs p).pgdir.lookup v ≠ (s.shm.procs p).pgdir.lookup v →
      WINPAGE ≤ v ∧ v < KERNBASE / PGSIZE
  same : ¬ c.InRange → c.run s = .ok s

/-- In range, or for `sys_split` below `-1` with `cgaflag` set. -/
def Fits (s : Tables) : IndexCall → Prop
  | .split p n => InRange (.split p n) ∨ n.toInt < -1 ∧ s.cga.cgaflag = true
  | c => c.InRange

end IndexCall

/-! ## Shared pages -/

section Shm

variable {p idx : ℕ} {s t : Sharing} {a : ℕ}

theorem winPage_mem (h : idx < MAXSHAREDPG) : WINPAGE ≤ winPage idx ∧ winPage idx < KERNBASE / PGSIZE := by
  have : KERNBASE / PGSIZE = 524288 := by decide
  unfold WINPAGE winPage
  omega

theorem getshared_outside (h : MAXSHAREDPG ≤ idx) : s.getshared p idx = .error (.outside idx) := by
  rw [Sharing.getshared, if_pos h]

theorem shareMap_inside {f : Frame} {d : Pgdir} (i : ℕ) :
    s.shareMap idx f d ≠ .error (.outside i) := by
  intro h
  unfold Sharing.shareMap at h
  split at h
  · cases h
  · cases h
  · split at h <;> cases h

theorem getshared_inside (h : idx < MAXSHAREDPG) (i : ℕ) :
    s.getshared p idx ≠ .error (.outside i) := by
  intro hs
  rw [Sharing.getshared, if_neg (by omega)] at hs
  split_ifs at hs
  split at hs
  · rename_i hv
    rw [Except.error.inj hs, Sharing.sharevm, if_neg (by omega)] at hv
    split_ifs at hv
    · exact shareMap_inside i hv
    · split at hv
      · cases hv
      · exact shareMap_inside i hv
  · cases hs

theorem releaseshared_inside (h : idx < MAXSHAREDPG) (i : ℕ) :
    s.releaseshared p idx ≠ .error (.outside i) := by
  intro hs
  rw [Sharing.releaseshared, if_neg (by omega)] at hs
  split_ifs at hs
  rw [Sharing.desharevm, if_neg (by omega)] at hs
  split_ifs at hs
  dsimp only at hs
  split_ifs at hs
  split at hs <;> cases hs

end Shm

/-! ## Windows -/

section Cga

variable {n : ℤ} {p : Caller} {s t : Cga} {c : ℤ}

theorem cgaputc_curidx (h : s.cgaputc c = some t) : t.curidx = s.curidx := by
  unfold Cga.cgaputc at h
  dsimp only at h
  split_ifs at h
  all_goals
    obtain rfl := Option.some.inj h
    rfl

/-- `splitw` leaves `curidx` in range. -/
theorem splitwAt_curidx (hs : s.curidx < MAXWINDOWS) (h : splitwAt n p s = .ok t) :
    t.curidx < MAXWINDOWS := by
  unfold splitwAt at h
  by_cases hm : n = -1
  · subst hm
    rw [if_pos rfl] at h
    split at h
    · rename_i hf
      obtain rfl := Except.ok.inj h
      unfold Cga.splitw
      dsimp only
      rw [if_pos rfl, hf]
      exact hs
    · rename_i i hf
      split_ifs at h
      obtain rfl := Except.ok.inj h
      unfold Cga.splitw
      dsimp only
      rw [if_pos rfl, hf]
      exact List.mem_range.1 (List.mem_of_find?_eq_some hf)
  · rw [if_neg hm] at h
    split_ifs at h
    · obtain rfl := Except.ok.inj h
      unfold Cga.splitw
      dsimp only
      rw [if_neg hm]
      split_ifs
      · show n.toNat < MAXWINDOWS
        omega
      · exact hs
    · obtain rfl := Except.ok.inj h
      unfold Cga.splitw
      dsimp only
      rw [if_neg hm, if_neg (by omega)]
      exact hs

theorem splitwAt_inside (hs : s.curidx < MAXWINDOWS) (hn : n = -1 ∨ n < MAXWINDOWS) (i : ℕ) :
    splitwAt n p s ≠ .error (.outside i) := by
  intro h
  unfold splitwAt at h
  by_cases hm : n = -1
  · rw [if_pos hm] at h
    split at h
    · cases h
    · rw [if_neg (by omega)] at h
      cases h
  · rw [if_neg hm] at h
    split_ifs at h with h0 hbig hcur
    · omega
    · omega

theorem splitwAt_below (hn : n < -1) : splitwAt n p s = .ok { s with cgaflag := true } := by
  unfold splitwAt Cga.splitw
  dsimp only
  rw [if_neg (by omega), if_neg (by omega), if_neg (by omega), if_neg (by omega)]

theorem splitwAt_outside (hn : (MAXWINDOWS : ℤ) ≤ n) :
    splitwAt n p s = .error (.outside n.toNat) := by
  unfold splitwAt
  rw [if_neg (by omega), if_pos (by omega), if_pos (by omega)]

end Cga

/-! ## Runs -/

theorem tablesStep_curidx {s t : Tables} {e : TablesEvent} (hs : s.cga.curidx < MAXWINDOWS)
    (h : tablesStep e s = some t) : t.cga.curidx < MAXWINDOWS := by
  cases e with
  | call c =>
    cases c with
    | getsharem p idx =>
      unfold tablesStep IndexCall.run at h
      cases hr : sysGetsharem p idx s.shm with
      | error e => simp [hr, Except.map, Except.toOption] at h
      | ok r =>
        obtain rfl : { s with shm := r.1 } = t := by simpa [hr, Except.map, Except.toOption] using h
        exact hs
    | releasesharem p idx =>
      unfold tablesStep IndexCall.run at h
      cases hr : sysReleasesharem p idx s.shm with
      | error e => simp [hr, Except.map, Except.toOption] at h
      | ok r =>
        obtain rfl : { s with shm := r } = t := by simpa [hr, Except.map, Except.toOption] using h
        exact hs
    | split p n =>
      unfold tablesStep IndexCall.run at h
      cases hr : splitwAt n.toInt p s.cga with
      | error e => simp [hr, Except.map, Except.toOption] at h
      | ok r =>
        obtain rfl : { s with cga := r } = t := by simpa [hr, Except.map, Except.toOption] using h
        exact splitwAt_curidx hs hr
  | putc c =>
    obtain ⟨r, hr, rfl⟩ := Option.map_eq_some_iff.1 h
    rw [cgaputc_curidx hr]
    exact hs
  | title p =>
    obtain rfl := Option.some.inj h
    exact hs
  | other shm =>
    obtain rfl := Option.some.inj h
    exact hs

section Calls

variable {s : Tables} {p : ℕ} {idx : BitVec 32}

theorem sysGetsharem_inside (h : idx.toNat < MAXSHAREDPG) (i : ℕ) :
    sysGetsharem p idx s.shm ≠ .error (.outside i) := by
  unfold sysGetsharem
  split_ifs
  · split
    · rename_i he
      intro hs
      rw [hs] at he
      exact getshared_inside (by decide) i he
    · exact getshared_inside h i
  · exact getshared_inside h i

theorem sysGetsharem_window (h : idx.toNat < MAXSHAREDPG) {t : Sharing} {a : ℕ}
    (hr : sysGetsharem p idx s.shm = .ok (t, a)) (q v : ℕ)
    (hv : (t.procs q).pgdir.lookup v ≠ (s.shm.procs q).pgdir.lookup v) :
    WINPAGE ≤ v ∧ v < KERNBASE / PGSIZE := by
  by_contra hout
  have hne : ∀ {j}, j < MAXSHAREDPG → v ≠ winPage j := by
    rintro j hj rfl
    exact hout (winPage_mem hj)
  unfold sysGetsharem at hr
  split_ifs at hr
  · split at hr
    · cases hr
    · rename_i u b hu
      exact hv ((Sharing.getshared_frame hr q v (hne h)).trans
        (Sharing.getshared_frame hu q v (hne (by decide))))
  · exact hv (Sharing.getshared_frame hr q v (hne h))

end Calls

theorem map_ne_error {α β : Type} {x : Except Fault α} {f : α → β} {i : ℕ}
    (h : x ≠ .error (.outside i)) : x.map f ≠ .error (.outside i) := by
  cases x with
  | error e =>
    intro hc
    rw [Except.error.inj (show Except.error e = Except.error (.outside i) from hc)] at h
    exact h rfl
  | ok a =>
    intro hc
    cases hc

theorem map_error_outside {α β : Type} {x : Except Fault α} {f : α → β} {i : ℕ}
    (h : x = .error (.outside i)) : x.map f = .error (.outside i) := by
  rw [h]
  rfl

theorem map_ok {α β : Type} {x : Except Fault α} {f : α → β} {b : β} (h : x.map f = .ok b) :
    ∃ a, x = .ok a ∧ f a = b := by
  cases x with
  | error e => cases h
  | ok a => exact ⟨a, rfl, Except.ok.inj h⟩

theorem run_split (p : Caller) (n : BitVec 32) (s : Tables) : (IndexCall.split p n).run s =
    (splitwAt n.toInt p s.cga).map fun r => { s with cga := r } := rfl

theorem safe_of_fits {s : Tables} (hs : s.cga.curidx < MAXWINDOWS) {c : IndexCall}
    (h : c.Fits s) : c.Safe s := by
  cases c with
  | getsharem p idx =>
    refine ⟨fun i => map_ne_error (sysGetsharem_inside h i), fun t ht q v hv => ?_,
      fun hn => absurd h hn⟩
    obtain ⟨⟨u, a⟩, hu, rfl⟩ := map_ok ht
    exact sysGetsharem_window h hu q v hv
  | releasesharem p idx =>
    refine ⟨fun i => map_ne_error (releaseshared_inside h i), fun t ht q v hv => ?_,
      fun hn => absurd h hn⟩
    obtain ⟨u, hu, rfl⟩ := map_ok ht
    exact absurd (Sharing.releaseshared_lookup hu q v) hv
  | split p n =>
    have hn : n.toInt = -1 ∨ n.toInt < MAXWINDOWS := by
      rcases h with (h | h) | h <;> omega
    refine ⟨fun i => map_ne_error (splitwAt_inside hs hn i), fun t ht q v hv => ?_, fun hout => ?_⟩
    · obtain ⟨u, -, rfl⟩ := map_ok ht
      exact absurd rfl hv
    · obtain ⟨hlt, hflag⟩ := h.resolve_left hout
      rw [run_split, splitwAt_below hlt, ← hflag]
      rfl

theorem fits_of_safe {s : Tables} {c : IndexCall} (h : c.Safe s) : c.Fits s := by
  by_contra hfit
  cases c with
  | getsharem p idx =>
    have hout : MAXSHAREDPG ≤ idx.toNat := Nat.le_of_not_lt hfit
    have hone : idx ≠ 1 := by
      rintro rfl
      exact hfit (show (1 : BitVec 32).toNat < MAXSHAREDPG by decide)
    refine h.inside idx.toNat (map_error_outside ?_)
    rw [sysGetsharem, if_neg hone, getshared_outside hout]
  | releasesharem p idx =>
    have hout : MAXSHAREDPG ≤ idx.toNat := Nat.le_of_not_lt hfit
    refine h.inside idx.toNat (map_error_outside ?_)
    rw [sysReleasesharem, Sharing.releaseshared, if_pos hout]
  | split p n =>
    have hfit' : ¬ ((n.toInt = -1 ∨ 0 ≤ n.toInt ∧ n.toInt < MAXWINDOWS) ∨
        n.toInt < -1 ∧ s.cga.cgaflag = true) := hfit
    rcases lt_or_ge n.toInt MAXWINDOWS with hlt | hge
    · have hneg : n.toInt < -1 := by omega
      have hsame := h.same fun hin => hfit (Or.inl hin)
      rw [run_split, splitwAt_below hneg] at hsame
      have hflag : true = s.cga.cgaflag := congrArg (fun t : Tables => t.cga.cgaflag)
        (Except.ok.inj hsame)
      exact hfit' (Or.inr ⟨hneg, hflag.symm⟩)
    · exact h.inside n.toInt.toNat (map_error_outside (splitwAt_outside hge))

/-- **Index arguments.** In every state reached from one that shows window 0, a call stays in the
tables and in the window, and does nothing out of range, if and only if its argument fits. -/
theorem safe_iff_fits {es : List TablesEvent} {s₀ s : Tables} (h₀ : s₀.cga.curidx = 0)
    (hr : run tablesStep es s₀ = some s) (c : IndexCall) : c.Safe s ↔ c.Fits s := by
  have hcur : s.cga.curidx < MAXWINDOWS :=
    run_inv (I := fun t : Tables => t.cga.curidx < MAXWINDOWS)
      (fun t e t' ht he => tablesStep_curidx ht he) (by rw [h₀]; decide) hr
  exact ⟨fits_of_safe, safe_of_fits hcur⟩

/-- The first call after the start that uses index 9. -/
theorem safe_iff_fits_start :
    let d : Pgdir := ⟨0, fun _ => none⟩
    let s : Tables := ⟨⟨⟨[300, 301], fun _ _ => 0⟩, fun _ => 0, fun _ => 0,
        fun _ => ⟨d, fun _ => false⟩⟩,
      ⟨fun _ => 0, 0, fun _ _ => 0, fun _ => 0, fun i => decide (i = 0), 0, false, fun _ => 0⟩⟩
    (IndexCall.getsharem 0 9).Safe s ↔ (IndexCall.getsharem 0 9).Fits s :=
  @safe_iff_fits [] _ _ rfl rfl _

/-- The index 10. -/
theorem not_safe : ¬ ∀ (s₀ s : Tables) (es : List TablesEvent), s₀.cga.curidx = 0 →
    run tablesStep es s₀ = some s → ∀ c : IndexCall, c.Safe s := by
  intro h
  let d : Pgdir := ⟨0, fun _ => none⟩
  let s : Tables := ⟨⟨⟨[300, 301], fun _ _ => 0⟩, fun _ => 0, fun _ => 0,
      fun _ => ⟨d, fun _ => false⟩⟩,
    ⟨fun _ => 0, 0, fun _ _ => 0, fun _ => 0, fun i => decide (i = 0), 0, false, fun _ => 0⟩⟩
  have hfit := fits_of_safe (h s s [] rfl rfl (.getsharem 0 10))
  exact absurd (show (10 : BitVec 32).toNat < MAXSHAREDPG from hfit) (by decide)

end OsPlayground
