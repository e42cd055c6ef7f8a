import OsPlayground.Syscall.Confined
import OsPlayground.Vm.Exec

/-!
# The arguments of `exec`

* `argvLoop`, `sysExec`: `sys_exec` up to the call of `exec`.
* `CStr`, `ArgVec`: a string and a vector of strings in user memory.
* **`sysExec_iff`**: `exec` gets every vector of fewer than `MAXARG` strings, and nothing else.
* **`exec_args`**: the stack that `exec` builds is such a vector, with the strings it was given.
-/

namespace OsPlayground

namespace Syscall

open Lib Access

/-! ## The code -/

/-- The loop of `sys_exec` over `argv`, with `k` entries to go. -/
def argvLoop (u : User) (uargv : ℕ) : ℕ → ℕ → Access (List ℕ)
  | 0, _ => Access.fail
  | k + 1, i => do
    let uarg ← u.fetchint ((uargv + 4 * i) % UINTS)
    if uarg = 0 then return []
    else do
      let s ← u.fetchstr uarg
      let rest ← argvLoop u uargv k (i + 1)
      return s.1 :: rest

/-- `sys_exec`: the `path` and the `argv` that `exec` gets. -/
def sysExec (u : User) : Access (ℕ × List ℕ) := do
  let path ← u.argstr 0
  let uargv ← u.argint 1
  let argv ← argvLoop u uargv MAXARG 0
  return (path.1, argv)

/-! ## User memory -/

variable {u : User}

/-- The bytes `bs` with a NUL are at `p` in the memory of the process. -/
structure CStr (u : User) (p : ℕ) (bs : List (Fin 256)) : Prop where
  fits : p + bs.length < u.sz
  byte : ∀ i, ∀ h : i < bs.length, u.mem (p + i) = bs[i]
  plain : ∀ b ∈ bs, b ≠ 0
  nul : u.mem (p + bs.length) = 0

/-- The pointers `ps`, each to a string, with a null pointer are at `a`. -/
def ArgVec (u : User) : ℕ → List ℕ → Prop
  | a, [] => a + 4 ≤ u.sz ∧ u.word a = 0
  | a, p :: ps => a + 4 ≤ u.sz ∧ u.word a = p ∧ p ≠ 0 ∧ (∃ bs, CStr u p bs) ∧ ArgVec u (a + 4) ps

theorem scan_iff {k s e : ℕ} : (u.scan k s).result = some e ↔
    s ≤ e ∧ e < s + k ∧ u.mem e = 0 ∧ ∀ x, s ≤ x → x < e → u.mem x ≠ 0 := by
  induction k generalizing s with
  | zero =>
    refine iff_of_false (by simp [User.scan, Access.fail]) ?_
    omega
  | succ k ih =>
    unfold User.scan
    rw [result_bind]
    constructor
    · rintro ⟨_, -, h⟩
      split_ifs at h with h0
      · obtain rfl : s = e := Option.some.inj h
        exact ⟨le_rfl, by omega, h0, fun x h₁ h₂ => by omega⟩
      · obtain ⟨h₁, h₂, h₃, hall⟩ := ih.1 h
        refine ⟨by omega, by omega, h₃, fun x hx hxe => ?_⟩
        rcases Nat.eq_or_lt_of_le hx with rfl | hlt
        · exact h0
        · exact hall x hlt hxe
    · rintro ⟨h₁, h₂, h₃, hall⟩
      refine ⟨(), rfl, ?_⟩
      rcases Nat.eq_or_lt_of_le h₁ with rfl | hlt
      · rw [if_pos h₃]
        rfl
      · rw [if_neg (hall s le_rfl hlt)]
        exact ih.2 ⟨hlt, by omega, h₃, fun x hx hxe => hall x (by omega) hxe⟩

/-- **`fetchstr`** finds the strings, and nothing else. -/
theorem fetchstr_iff {a p len : ℕ} : (u.fetchstr a).result = some (p, len) ↔
    p = a ∧ ∃ bs, CStr u a bs ∧ len = bs.length := by
  unfold User.fetchstr
  rw [result_bind]
  constructor
  · rintro ⟨_, hr, h⟩
    obtain ⟨e, he, h⟩ := result_bind.1 h
    obtain ⟨rfl, rfl⟩ := Prod.mk.inj (Option.some.inj h)
    obtain ⟨h₁, h₂, h₃, hall⟩ := scan_iff.1 he
    have hlen : ((List.range (e - a)).map fun i => u.mem (a + i)).length = e - a := by simp
    refine ⟨rfl, (List.range (e - a)).map fun i => u.mem (a + i),
      ⟨?_, fun i hi => ?_, fun b hb => ?_, ?_⟩, hlen.symm⟩
    · rw [hlen]
      omega
    · rw [List.getElem_map, List.getElem_range]
    · obtain ⟨i, hi, rfl⟩ := List.mem_map.1 hb
      rw [List.mem_range] at hi
      exact hall _ (by omega) (by omega)
    · rw [hlen, Nat.add_sub_cancel' h₁]
      exact h₃
  · rintro ⟨rfl, bs, hbs, rfl⟩
    have hfits := hbs.fits
    have hok : ¬ p ≥ u.sz := by omega
    refine ⟨(), by simp [Access.require, hok, Access.ret], ?_⟩
    refine result_bind.2 ⟨p + bs.length, ?_, ?_⟩
    · refine scan_iff.2 ⟨by omega, by omega, hbs.nul, fun x h₁ h₂ => ?_⟩
      have hlt : x - p < bs.length := by omega
      have hx : u.mem (p + (x - p)) = bs[x - p] := hbs.byte (x - p) hlt
      rw [Nat.add_sub_cancel' h₁] at hx
      rw [hx]
      exact hbs.plain _ (List.getElem_mem _)
    · rw [Nat.add_sub_cancel_left]
      rfl

theorem fetchstr_within (a : ℕ) : (u.fetchstr a).Within u.sz := by
  unfold User.fetchstr
  refine within_bind.2 ⟨within_require, fun _ hr => within_bind.2 ⟨scan_within ?_, fun _ _ =>
    within_pure _⟩⟩
  have := require_result hr
  omega

section Exec

variable (hsz : u.sz < SHAREDBASE)
include hsz

theorem fetchint_iff {addr v : ℕ} : (u.fetchint addr).result = some v ↔
    addr + 4 ≤ u.sz ∧ u.word addr = v := by
  refine ⟨fun h => ⟨fetchint_spec hsz h, ?_⟩, fun ⟨hfit, hv⟩ => ?_⟩
  · unfold User.fetchint at h
    obtain ⟨_, -, h⟩ := result_bind.1 h
    obtain ⟨_, -, h⟩ := result_bind.1 h
    exact Option.some.inj h
  · have hok : ¬ (addr ≥ u.sz ∨ (addr + 4) % UINTS > u.sz) := by
      simp only [UINTS, SHAREDBASE] at *
      omega
    unfold User.fetchint
    refine result_bind.2 ⟨(), by simp only [Access.require, if_pos hok, Access.ret], ?_⟩
    exact result_bind.2 ⟨(), rfl, congrArg some hv⟩

theorem argvLoop_iff {uargv k i : ℕ} {argv : List ℕ} (hi : uargv + 4 * i < UINTS) :
    (argvLoop u uargv k i).result = some argv ↔
      argv.length < k ∧ ArgVec u (uargv + 4 * i) argv := by
  induction k generalizing i argv with
  | zero =>
    refine iff_of_false (by simp [argvLoop, Access.fail]) ?_
    omega
  | succ k ih =>
    unfold argvLoop
    rw [result_bind, Nat.mod_eq_of_lt hi]
    constructor
    · rintro ⟨uarg, hint, h⟩
      obtain ⟨hfit, hword⟩ := (fetchint_iff hsz).1 hint
      split_ifs at h with h0
      · obtain rfl : [] = argv := Option.some.inj h
        exact ⟨Nat.succ_pos k, hfit, hword.trans h0⟩
      · obtain ⟨⟨p, len⟩, hstr, h⟩ := result_bind.1 h
        obtain ⟨rest, hrest, h⟩ := result_bind.1 h
        obtain rfl : p :: rest = argv := Option.some.inj h
        obtain ⟨rfl, bs, hbs, -⟩ := fetchstr_iff.1 hstr
        have hnext : uargv + 4 * (i + 1) < UINTS := by
          simp only [UINTS, SHAREDBASE] at *
          omega
        obtain ⟨hlen, hvec⟩ := (ih hnext).1 hrest
        exact ⟨Nat.succ_lt_succ hlen, hfit, hword, h0, ⟨bs, hbs⟩, hvec⟩
    · rintro ⟨hlen, hvec⟩
      cases argv with
      | nil =>
        obtain ⟨hfit, h0⟩ := hvec
        exact ⟨0, (fetchint_iff hsz).2 ⟨hfit, h0⟩, rfl⟩
      | cons p ps =>
        obtain ⟨hfit, hword, h0, ⟨bs, hbs⟩, hrest⟩ := hvec
        have hnext : uargv + 4 * (i + 1) < UINTS := by
          simp only [UINTS, SHAREDBASE] at *
          omega
        refine ⟨p, (fetchint_iff hsz).2 ⟨hfit, hword⟩, ?_⟩
        rw [if_neg h0]
        refine result_bind.2 ⟨(p, bs.length), fetchstr_iff.2 ⟨rfl, bs, hbs, rfl⟩, ?_⟩
        exact result_bind.2 ⟨ps, (ih hnext).2 ⟨Nat.lt_of_succ_lt_succ hlen, hrest⟩, rfl⟩

theorem argvLoop_within (uargv k i : ℕ) : (argvLoop u uargv k i).Within u.sz := by
  induction k generalizing i with
  | zero => exact within_fail
  | succ k ih =>
    unfold argvLoop
    refine within_bind.2 ⟨fetchint_within hsz _, fun uarg _ => ?_⟩
    split_ifs
    · exact within_pure _
    · exact within_bind.2 ⟨fetchstr_within uarg, fun _ _ => within_bind.2 ⟨ih (i + 1), fun _ _ =>
        within_pure _⟩⟩

theorem sysExec_within : (sysExec u).Within u.sz := by
  unfold sysExec
  exact within_bind.2 ⟨argstr_within hsz 0, fun _ _ => within_bind.2 ⟨argint_within hsz 1,
    fun uargv _ => within_bind.2 ⟨argvLoop_within hsz uargv MAXARG 0, fun _ _ => within_pure _⟩⟩⟩

theorem sysExec_result {path : ℕ} {argv : List ℕ} : (sysExec u).result = some (path, argv) ↔
    (∃ bs, CStr u path bs) ∧ (u.argint 0).result = some path ∧
      ∃ uargv, (u.argint 1).result = some uargv ∧ argv.length < MAXARG ∧ ArgVec u uargv argv := by
  unfold sysExec User.argstr
  rw [result_bind]
  constructor
  · rintro ⟨⟨p, len⟩, hstr, h⟩
    obtain ⟨addr, h0, hstr⟩ := result_bind.1 hstr
    obtain ⟨rfl, bs, hbs, -⟩ := fetchstr_iff.1 hstr
    obtain ⟨uargv, h1, h⟩ := result_bind.1 h
    obtain ⟨ps, hargv, h⟩ := result_bind.1 h
    obtain ⟨rfl, rfl⟩ := Prod.mk.inj (Option.some.inj h)
    obtain ⟨hlen, hvec⟩ := (argvLoop_iff hsz (argint_lt h1)).1 hargv
    exact ⟨⟨bs, hbs⟩, h0, uargv, h1, hlen, hvec⟩
  · rintro ⟨⟨bs, hbs⟩, h0, uargv, h1, hlen, hvec⟩
    refine ⟨(path, bs.length), result_bind.2 ⟨path, h0, fetchstr_iff.2 ⟨rfl, bs, hbs, rfl⟩⟩, ?_⟩
    refine result_bind.2 ⟨uargv, h1, result_bind.2 ⟨argv, ?_, rfl⟩⟩
    exact (argvLoop_iff hsz (argint_lt h1)).2 ⟨hlen, hvec⟩

/-- **What `sys_exec` passes on**, from memory of the process alone. -/
theorem sysExec_iff : (sysExec u).Within u.sz ∧ ∀ path argv,
    (sysExec u).result = some (path, argv) ↔
      (∃ bs, CStr u path bs) ∧ (u.argint 0).result = some path ∧
        ∃ uargv, (u.argint 1).result = some uargv ∧ argv.length < MAXARG ∧ ArgVec u uargv argv :=
  ⟨sysExec_within hsz, fun _ _ => sysExec_result hsz⟩

end Exec

theorem sysExec_iff_tight : (sysExec tightUser).Within 4096 ∧ ∀ path argv,
    (sysExec tightUser).result = some (path, argv) ↔
      (∃ bs, CStr tightUser path bs) ∧ (tightUser.argint 0).result = some path ∧
        ∃ uargv, (tightUser.argint 1).result = some uargv ∧ argv.length < MAXARG ∧
          ArgVec tightUser uargv argv :=
  sysExec_iff (u := tightUser) (by decide)

/-! ## From one `exec` to the next -/

/-- The memory of the process has the bytes `x` from `lo` to `hi`. -/
structure Holds (u : User) (x : Bytes) (lo hi : ℕ) : Prop where
  hi_le : hi ≤ u.sz
  byte : ∀ a, lo ≤ a → a < hi → (u.mem a).val = x a

/-- `argv` as `exec` gets it. -/
def codes (argv : List (List (Fin 256))) : List (List ℕ) := argv.map fun s => s.map Fin.val

section Args

variable {x : Bytes} {lo hi esp a : ℕ} {argv : List (List (Fin 256))} {ptrs : List ℕ}

theorem Holds.word (h : Holds u x lo hi) (hlo : lo ≤ a) (hhi : a + 4 ≤ hi) :
    u.word a = getLE x a 4 := by
  unfold User.word
  rw [h.byte a hlo (by omega), h.byte (a + 1) (by omega) (by omega),
    h.byte (a + 2) (by omega) (by omega), h.byte (a + 3) (by omega) (by omega)]
  simp only [getLE, Nat.add_assoc, Nat.reduceAdd]
  omega

theorem argVec_of (hptrs : List.Forall₂ (CStr u) ptrs argv) (hfit : a + 4 * (argv.length + 1) ≤ u.sz)
    (hword : ∀ i (h : i < ptrs.length), u.word (a + 4 * i) = ptrs[i]) (hpos : ∀ p ∈ ptrs, p ≠ 0)
    (hnull : u.word (a + 4 * argv.length) = 0) : ArgVec u a ptrs := by
  induction hptrs generalizing a with
  | nil => exact ⟨hfit, hnull⟩
  | @cons p s ptrs argv hp hptrs ih =>
    rw [List.length_cons] at hfit hnull
    refine ⟨by omega, hword 0 (Nat.succ_pos _), hpos p List.mem_cons_self, ⟨s, hp⟩, ?_⟩
    refine ih (by omega) (fun i hi => ?_) (fun q hq => hpos q (List.mem_cons_of_mem _ hq)) ?_
    · rw [show a + 4 + 4 * i = a + 4 * (i + 1) by omega]
      exact hword (i + 1) (Nat.succ_lt_succ hi)
    · rw [show a + 4 + 4 * argv.length = a + 4 * (argv.length + 1) by omega]
      exact hnull

/-- A stack with arguments, read as the program reads it. -/
theorem argsAt_argVec (h : ArgsAt x lo hi esp (codes argv)) (hargv : ∀ s ∈ argv, 0 ∉ s)
    (hu : Holds u x esp hi) : u.word (esp + 4) = argv.length ∧
      ∃ ptrs, List.Forall₂ (CStr u) ptrs argv ∧ ArgVec u (u.word (esp + 8)) ptrs := by
  have hlen : (codes argv).length = argv.length := List.length_map _
  have hhi := h.le_hi
  have hsz := hu.hi_le
  have hnull := h.null
  rw [hlen] at hhi hnull
  have hptr : ∀ i ≤ argv.length, u.word (esp + 12 + 4 * i) = getLE x (esp + 12 + 4 * i) 4 :=
    fun i hi => hu.word (by omega) (by omega)
  have hstr : ∀ i (hi : i < argv.length), getLE x (esp + 12 + 4 * i) 4 ≠ 0 ∧
      CStr u (getLE x (esp + 12 + 4 * i) 4) argv[i] := by
    intro i hi
    have hlt : i < (codes argv).length := hlen.symm ▸ hi
    obtain ⟨h₁, h₂, h₃⟩ := h.strings i hlt
    have hget : (codes argv)[i] = argv[i].map Fin.val := List.getElem_map _
    rw [hget, List.length_map] at h₂ h₃
    refine ⟨by omega, by omega, fun j hj => Fin.ext ?_, fun b hb h0 => ?_, Fin.ext ?_⟩
    · rw [hu.byte _ (by omega) (by omega), h₃ j hj.le, List.getD_eq_getElem _ _ (by simpa using hj),
        List.getElem_map]
    · exact hargv _ (List.getElem_mem hi) (h0 ▸ hb)
    · rw [hu.byte _ (by omega) (by omega), h₃ _ le_rfl, List.getD_eq_default _ _ (by simp)]
      rfl
  refine ⟨?_, (List.range argv.length).map fun i => getLE x (esp + 12 + 4 * i) 4, ?_⟩
  · rw [hu.word (by omega) (by omega), h.argc, hlen]
  have hall : List.Forall₂ (CStr u) ((List.range argv.length).map fun i =>
      getLE x (esp + 12 + 4 * i) 4) argv := by
    refine List.forall₂_iff_get.2 ⟨by simp, fun i h₁ h₂ => ?_⟩
    simpa using (hstr i h₂).2
  refine ⟨hall, ?_⟩
  rw [hu.word (by omega) (by omega), h.pointer]
  refine argVec_of hall (by omega) (fun i hi => ?_) (fun p hp => ?_) ?_
  · rw [List.length_map, List.length_range] at hi
    rw [hptr i hi.le, List.getElem_map, List.getElem_range]
  · obtain ⟨i, hi, rfl⟩ := List.mem_map.1 hp
    exact (hstr i (List.mem_range.1 hi)).1
  · rw [hptr _ le_rfl, hnull]

theorem stack_userByte {m₀ m : Kmem} {d : Pgdir} {base : ℕ} {f : Frame} (hs : Stack m₀ m d base f)
    (hlo : base ≤ a) (hhi : a < base + PGSIZE) : userByte d m a = m.mem f (a % PGSIZE) := by
  obtain ⟨e, he, hef, -⟩ := hs.page
  have hpage : a / PGSIZE = base / PGSIZE := by
    have haligned := hs.aligned
    simp only [PGSIZE] at haligned hhi ⊢
    omega
  rw [userByte, hpage, he, Option.elim_some, hef]

/-- **The arguments are handed on.** As long as the program leaves its arguments on the stack,
`sys_exec` reads what `exec` has put there, when that is fewer than `MAXARG` strings. -/
theorem exec_args {m₀ m m' : Kmem} {d d' : Pgdir} {sz sz' : ℕ} (hv : Valid m₀.free)
    (h : Loaded m₀ m d sz) (hargv : ∀ s ∈ argv, 0 ∉ s ∧ s.length < KERNBASE)
    (hb : buildStack d sz (codes argv) m = .ok (m', d', some (sz', esp))) (u : User)
    (hsz : u.sz < SHAREDBASE) (hu : Holds u (userByte d' m') esp sz') :
    u.word (esp + 4) = argv.length ∧ ∃ ptrs, List.Forall₂ (CStr u) ptrs argv ∧
      ∀ path, (∃ bs, CStr u path bs) → (u.argint 0).result = some path →
        (u.argint 1).result = some (u.word (esp + 8)) →
        ((sysExec u).result = some (path, ptrs) ↔ argv.length < MAXARG) := by
  have hcodes : ∀ s ∈ codes argv, s.length < KERNBASE := by
    intro s hs
    obtain ⟨t, ht, rfl⟩ := List.mem_map.1 hs
    rw [List.length_map]
    exact (hargv t ht).2
  rcases buildStack_spec hv h hcodes with ⟨_, _, hn, -⟩ | ⟨m₁, d₁, base, f, esp₁, hs, hstack, hargs⟩
  · rw [hb] at hn
    cases hn
  rw [hb] at hs
  cases hs
  have hargs' : ArgsAt (userByte d' m') base (base + PGSIZE) esp (codes argv) :=
    hargs.congr fun a hlo hhi => stack_userByte hstack hlo hhi
  obtain ⟨hargc, ptrs, hall, hvec⟩ := argsAt_argVec hargs' (fun s hs => (hargv s hs).1) hu
  refine ⟨hargc, ptrs, hall, fun path hpath h0 h1 => ?_⟩
  rw [sysExec_result hsz, ← hall.length_eq]
  constructor
  · rintro ⟨-, -, _, -, hlen, -⟩
    exact hlen
  · intro hlen
    exact ⟨hpath, h0, _, h1, hlen, hvec⟩

end Args

theorem onePage_loaded : Loaded ⟨[400, 401, 300, 301, 302], fun _ _ => 0⟩
    ⟨[400, 401], fun _ _ => 0⟩ onePage 4096 where
  free := by
    rw [onePage_frames]
    rfl
  mem _ _ := rfl
  size := (onePage_memory fun _ _ => 0).size
  mapped := (onePage_memory fun _ _ => 0).mapped
  kernel v e hv he := by
    rw [onePage_lookup] at he
    split_ifs at he with h0
    subst h0
    exact absurd hv (by unfold WINPAGE; decide)

theorem onePage_valid : Valid (⟨[400, 401, 300, 301, 302], fun _ _ => 0⟩ : Kmem).free where
  nodup := by decide
  ok f hf := by
    have hcases : f = 400 ∨ f = 401 ∨ f = 300 ∨ f = 301 ∨ f = 302 := by
      simpa [Kmem.free] using hf
    rcases hcases with rfl | rfl | rfl | rfl | rfl <;> decide

/-- `ls` -/
def argvLs : List (List (Fin 256)) := [[⟨108, by decide⟩, ⟨115, by decide⟩]]

theorem buildStack_ls : ∃ m' d', buildStack onePage 4096 (codes argvLs)
    ⟨[400, 401], fun _ _ => 0⟩ = .ok (m', d', some (12288, 12264)) ∧
      ∀ i < 24, userByte d' m' (12264 + i) < 256 := by
  have hstack : (buildStack onePage 4096 (codes argvLs) ⟨[400, 401], fun _ _ => 0⟩).toOption.bind
      (fun r => r.2.2) = some (12288, 12264) := by decide +kernel
  have hbytes : (buildStack onePage 4096 (codes argvLs) ⟨[400, 401], fun _ _ => 0⟩).toOption.all
      (fun r => (List.range 24).all fun i => userByte r.2.1 r.1 (12264 + i) < 256) = true := by
    decide +kernel
  generalize buildStack onePage 4096 (codes argvLs) ⟨[400, 401], fun _ _ => 0⟩ = b at hstack hbytes ⊢
  rcases b with _ | ⟨m', d', r⟩
  · cases hstack
  · obtain rfl : r = some (12288, 12264) := hstack
    refine ⟨m', d', rfl, fun i hi => ?_⟩
    exact of_decide_eq_true (List.all_eq_true.1 hbytes i (List.mem_range.2 hi))

theorem exec_args_ls : ∃ m' d' u, buildStack onePage 4096 (codes argvLs)
      ⟨[400, 401], fun _ _ => 0⟩ = .ok (m', d', some (12288, 12264)) ∧
    Holds u (userByte d' m') 12264 12288 ∧ u.word 12268 = 1 ∧
    ∃ ptrs, List.Forall₂ (CStr u) ptrs argvLs ∧
      ∀ path, (∃ bs, CStr u path bs) → (u.argint 0).result = some path →
        (u.argint 1).result = some (u.word 12272) →
        ((sysExec u).result = some (path, ptrs) ↔ 1 < MAXARG) := by
  obtain ⟨m', d', hb, hbytes⟩ := buildStack_ls
  let u : User :=
    ⟨12288, 0, fun a => ⟨userByte d' m' a % 256, Nat.mod_lt _ (by decide)⟩, fun _ => none⟩
  have hu : Holds u (userByte d' m') 12264 12288 := by
    refine ⟨le_rfl, fun a hlo hhi => ?_⟩
    have h := hbytes (a - 12264) (by omega)
    rw [Nat.add_sub_cancel' hlo] at h
    exact Nat.mod_eq_of_lt h
  have hsz : u.sz < SHAREDBASE := show 12288 < SHAREDBASE by decide
  exact ⟨m', d', u, hb, hu, exec_args onePage_valid onePage_loaded (by decide) hb u hsz hu⟩

end Syscall

end OsPlayground
