import OsPlayground.Syscall.Args

/-!
# System calls stay in user memory

* `argint_spec`, `argptr_spec`, `argstr_spec`: what a successful argument vouches for.
* `fileread_within`, `filewrite_within`, `filestat_within`: the callees stay in the buffer.
* `Confined`, **`confined_iff`**: a call stays in `[0, sz)`, except `sys_getmemo` when the memo is
  longer than what is left of the process's memory behind `path`.
-/

namespace OsPlayground

namespace Syscall

open Lib Access

variable {u : User}

theorem mem_bytes {a n m : ℕ} (hm : m ≤ SHAREDBASE) (h : a + n ≤ m) : ∀ x ∈ bytes a n, x < m :=
  span_within (hm.trans (by decide)) h

/-! ## Arguments -/

theorem scan_spec {k s e : ℕ} (h : (u.scan k s).result = some e) : s ≤ e ∧ e < s + k := by
  induction k generalizing s with
  | zero => cases h
  | succ k ih =>
    unfold User.scan at h
    obtain ⟨_, -, h⟩ := result_bind.mp h
    split_ifs at h
    · obtain rfl : s = e := Option.some.inj h
      omega
    · have := ih h
      omega

theorem scan_within {k s : ℕ} (h : s + k ≤ u.sz) : (u.scan k s).Within u.sz := by
  induction k generalizing s with
  | zero => exact within_fail
  | succ k ih =>
    unfold User.scan
    refine within_bind.mpr ⟨within_touch.mpr (by simp; omega), fun _ _ => ?_⟩
    split_ifs
    · exact within_pure _
    · exact ih (by omega)

/-- **`argstr`** vouches for the string with its NUL. -/
theorem argstr_spec {n p len : ℕ} (h : (u.argstr n).result = some (p, len)) :
    p + (len + 1) ≤ u.sz := by
  unfold User.argstr User.fetchstr at h
  obtain ⟨addr, -, h⟩ := result_bind.mp h
  obtain ⟨_, hr, h⟩ := result_bind.mp h
  obtain ⟨e, he, h⟩ := result_bind.mp h
  obtain ⟨rfl, rfl⟩ := Prod.mk.inj (Option.some.inj h)
  have := require_result hr
  have := scan_spec he
  omega

section Args

variable (hsz : u.sz < SHAREDBASE)
include hsz

theorem fetchint_spec {addr v : ℕ} (h : (u.fetchint addr).result = some v) : addr + 4 ≤ u.sz := by
  unfold User.fetchint at h
  obtain ⟨_, hr, -⟩ := result_bind.mp h
  have := require_result hr
  simp only [UINTS, SHAREDBASE] at *
  omega

theorem fetchint_within (addr : ℕ) : (u.fetchint addr).Within u.sz := by
  unfold User.fetchint
  refine within_bind.mpr ⟨within_require, fun _ hr => within_bind.mpr ⟨?_, fun _ _ => within_pure _⟩⟩
  refine mem_bytes hsz.le ?_
  have := require_result hr
  simp only [UINTS, SHAREDBASE] at *
  omega

theorem argint_within (n : ℕ) : (u.argint n).Within u.sz := fetchint_within hsz _

/-- **`argint`** vouches for the argument. -/
theorem argint_spec {n v : ℕ} (h : (u.argint n).result = some v) : u.argAddr n + 4 ≤ u.sz :=
  fetchint_spec hsz h

theorem argptr_within (n : ℕ) (size : ℤ) : (u.argptr n size).Within u.sz := by
  unfold User.argptr
  exact within_bind.mpr ⟨argint_within hsz n, fun _ _ =>
    within_bind.mpr ⟨within_require, fun _ _ => within_pure _⟩⟩

/-- **`argptr`** vouches for `size` bytes. -/
theorem argptr_spec {n p : ℕ} {size : ℤ} (hsize : size < 2 ^ 31)
    (h : (u.argptr n size).result = some p) : 0 ≤ size ∧ p + size.toNat ≤ u.sz := by
  unfold User.argptr at h
  obtain ⟨i, -, h⟩ := result_bind.mp h
  obtain ⟨_, hr, h⟩ := result_bind.mp h
  obtain rfl : i = p := Option.some.inj h
  have := require_result hr
  simp only [UINTS, SHAREDBASE] at *
  omega

theorem argstr_within (n : ℕ) : (u.argstr n).Within u.sz := by
  unfold User.argstr User.fetchstr
  refine within_bind.mpr ⟨argint_within hsz n, fun _ _ => within_bind.mpr ⟨within_require,
    fun _ hr => within_bind.mpr ⟨scan_within ?_, fun _ _ => within_pure _⟩⟩⟩
  have := require_result hr
  omega

theorem argfd_within (n : ℕ) : (u.argfd n).Within u.sz := by
  unfold User.argfd
  refine within_bind.mpr ⟨argint_within hsz n, fun _ _ => ?_⟩
  split
  · split
    · exact within_pure _
    · exact within_fail
  · exact within_fail

end Args

/-! ## The callees -/

theorem consoleread_le (cs : List ℕ) (n : ℕ) : consoleread cs n ≤ n := by
  induction cs generalizing n with
  | nil => cases n <;> simp [consoleread]
  | cons c cs ih =>
    cases n with
    | zero => simp [consoleread]
    | succ n =>
      have := ih n
      unfold consoleread
      split_ifs <;> omega

theorem readLoop_length_le (n : ℕ) (p : Pipe) : (readLoop n p).2.length ≤ n := by
  induction n generalizing p with
  | zero => simp [readLoop]
  | succ n ih =>
    unfold readLoop
    split_ifs
    · simp
    · simpa using ih p.advance

theorem writeLoop_length (killed : Bool) (bs : List ℕ) (p : Pipe) :
    (writeLoop killed bs p).2.1.length ≤ bs.length ∧ ∀ bs', (writeLoop killed bs p).2.2 = .sleep bs' →
      (writeLoop killed bs p).2.1.length + bs'.length ≤ bs.length := by
  induction bs generalizing p with
  | nil => simp [writeLoop]
  | cons b bs ih =>
    unfold writeLoop
    split_ifs
    · simp
    · simp
    · obtain ⟨h₁, h₂⟩ := ih (p.put b)
      refine ⟨by simpa using h₁, fun bs' hbs' => ?_⟩
      have := h₂ bs' hbs'
      simp only [List.length_cons]
      omega

theorem pipewrite_le (ps : List (Bool × Pipe)) (bs : List ℕ) : pipewrite ps bs ≤ bs.length := by
  induction ps generalizing bs with
  | nil => simp [pipewrite]
  | cons q ps ih =>
    obtain ⟨killed, p⟩ := q
    obtain ⟨h₁, h₂⟩ := writeLoop_length killed bs p
    simp only [pipewrite]
    split
    · rename_i bs' hbs'
      have := h₂ bs' hbs'
      have := ih bs'
      omega
    · exact h₁

theorem strncpyReads_lt (t : ℕ → Fin 256) {i n j : ℕ} (h : j ∈ strncpyReads t i n) : j < i + n := by
  induction n generalizing i with
  | zero => cases h
  | succ n ih =>
    unfold strncpyReads at h
    rcases List.mem_cons.mp h with rfl | h
    · omega
    · split_ifs at h
      · have := ih h
        omega
      · cases h

section Callees

variable {m : ℕ} (hm : m ≤ SHAREDBASE)
include hm

theorem blocks_within {fuel addr off left : ℕ} (h : addr + left ≤ m) :
    ∀ x ∈ blocks fuel addr off left, x < m := by
  induction fuel generalizing addr off left with
  | zero => simp [blocks]
  | succ fuel ih =>
    unfold blocks
    split_ifs
    · simp
    · intro x hx
      have hle := Nat.min_le_left left (512 - off % 512)
      rcases List.mem_append.mp hx with hx | hx
      · exact mem_bytes hm (by omega) x hx
      · exact ih (by omega) x hx

theorem readi_within (t : Target) {dst n : ℕ} (h : dst + n ≤ m) : (readi t dst n).Within m := by
  unfold readi
  split
  · rename_i major input
    have := consoleread_le input n
    exact within_bind.mpr ⟨within_require, fun _ _ => within_bind.mpr
      ⟨mem_bytes hm (by omega), fun _ _ => within_pure _⟩⟩
  · rename_i size off
    refine within_bind.mpr ⟨within_require, fun _ hr => within_bind.mpr
      ⟨blocks_within hm ?_, fun _ _ => within_pure _⟩⟩
    have := require_result hr
    simp only [UINTS, SHAREDBASE] at *
    split_ifs <;> omega
  · exact within_fail

theorem writei_within (t : Target) {src off n : ℕ} (h : src + n ≤ m) :
    (writei t src off n).Within m := by
  unfold writei
  split
  · exact within_bind.mpr ⟨within_require, fun _ _ => within_bind.mpr
      ⟨mem_bytes hm h, fun _ _ => within_pure _⟩⟩
  · exact within_bind.mpr ⟨within_require, fun _ _ => within_bind.mpr ⟨within_require, fun _ _ =>
      within_bind.mpr ⟨blocks_within hm h, fun _ _ => within_pure _⟩⟩⟩
  · exact within_fail

/-- **`fileread`** stays in the buffer. -/
theorem fileread_within (f : OpenFile) {addr n : ℕ} (h : addr + n ≤ m) :
    (fileread f addr n).Within m := by
  unfold fileread
  refine within_bind.mpr ⟨within_require, fun _ _ => ?_⟩
  split
  · rename_i p ps _
    have := readLoop_length_le n p
    exact within_bind.mpr ⟨mem_bytes hm (by omega), fun _ _ => within_pure _⟩
  · exact within_fail
  · exact readi_within hm _ h

theorem chunks_within {fuel : ℕ} (t : Target) {addr off i n : ℕ} (h : addr + n ≤ m) :
    (chunks fuel t addr off i n).Within m := by
  induction fuel generalizing t off i with
  | zero => exact within_pure _
  | succ fuel ih =>
    unfold chunks
    split_ifs with hi hmax
    · exact within_bind.mpr ⟨writei_within hm t (by omega), fun _ _ => ih _⟩
    · exact within_bind.mpr ⟨writei_within hm t (by omega), fun _ _ => ih _⟩
    · exact within_pure _

/-- **`filewrite`** stays in the buffer. -/
theorem filewrite_within (f : OpenFile) {addr n : ℕ} (h : addr + n ≤ m) :
    (filewrite u f addr n).Within m := by
  unfold filewrite
  refine within_bind.mpr ⟨within_require, fun _ _ => ?_⟩
  split
  · rename_i p ps _
    have hle := pipewrite_le ps ((List.range n).map fun i => (u.mem (addr + i)).val)
    rw [List.length_map, List.length_range] at hle
    exact within_bind.mpr ⟨mem_bytes hm (by omega), fun _ _ => within_pure _⟩
  · refine within_bind.mpr ⟨fun x hx => ?_, fun _ _ => within_pure _⟩
    obtain ⟨i, hi, rfl⟩ := List.mem_map.mp hx
    have := strncpyReads_lt _ hi
    simp only [UINTS, SHAREDBASE] at *
    rw [Nat.mod_eq_of_lt (by omega)]
    omega
  · exact chunks_within hm _ h
  · exact chunks_within hm _ h

/-- **`filestat`** stays in the structure. -/
theorem filestat_within (f : OpenFile) {st : ℕ} (h : st + 20 ≤ m) : (filestat f st).Within m := by
  have hall : ∀ x ∈ statFields.flatMap fun fld => bytes (st + fld.1) fld.2, x < m := by
    intro x hx
    obtain ⟨fld, hfld, hx⟩ := List.mem_flatMap.mp hx
    have hle : fld.1 + fld.2 ≤ 20 := by
      have hfields : ∀ fld ∈ statFields, fld.1 + fld.2 ≤ 20 := by decide
      exact hfields fld hfld
    exact mem_bytes hm (by omega) x hx
  unfold filestat
  split
  · exact within_bind.mpr ⟨hall, fun _ _ => within_pure _⟩
  · exact within_bind.mpr ⟨hall, fun _ _ => within_pure _⟩
  · exact within_fail

end Callees

/-! ## The calls -/

/-- The arguments vouch for bytes of the process's memory, and the call touches nothing else. -/
structure Confined (u : User) (call : Call) : Prop where
  int : ∀ n v, (u.argint n).result = some v → ∀ a ∈ bytes (u.argAddr n) 4, a < u.sz
  ptr : ∀ n (size : ℤ) p, size < 2 ^ 31 → (u.argptr n size).result = some p →
    ∀ a ∈ bytes p size.toNat, a < u.sz
  str : ∀ n p len, (u.argstr n).result = some (p, len) → ∀ a ∈ bytes p (len + 1), a < u.sz
  touched : (call.run u).Within u.sz

theorem toInt_lt (n : ℕ) (hn : n < 2 ^ 32) : toInt n < 2 ^ 31 := by
  unfold toInt
  split_ifs <;> omega

theorem word_lt (u : User) (a : ℕ) : u.word a < 2 ^ 32 := by
  have h := fun i => (u.mem i).isLt
  have h₀ := h a
  have h₁ := h (a + 1)
  have h₂ := h (a + 2)
  have h₃ := h (a + 3)
  unfold User.word
  omega

theorem argint_lt {n v : ℕ} (h : (u.argint n).result = some v) : v < 2 ^ 32 := by
  unfold User.argint User.fetchint at h
  obtain ⟨_, -, h⟩ := result_bind.mp h
  obtain ⟨_, -, h⟩ := result_bind.mp h
  obtain rfl := Option.some.inj h
  exact word_lt u _

/-- `sys_getmemo` stays in the process's memory exactly if the memo fits behind `path`. -/
theorem sysGetmemoAt_within_iff (hsz : u.sz < SHAREDBASE) (memo : ℕ → ℕ) (lmemo : Fin (2 ^ 32)) :
    (sysGetmemoAt memo (toInt lmemo) u).Within u.sz ↔
      ∀ path len, (u.argstr 0).result = some (path, len) →
        0 ≤ path + toInt lmemo ∧ path + toInt lmemo < u.sz := by
  have hlm : -2 ^ 31 ≤ toInt lmemo ∧ toInt lmemo < 2 ^ 31 := by
    have := lmemo.isLt
    unfold toInt
    split_ifs <;> omega
  unfold sysGetmemoAt
  rw [within_bind]
  refine (and_iff_right (argstr_within hsz 0)).trans ?_
  rw [Prod.forall]
  refine forall₂_congr fun path len => ?_
  refine imp_congr_right fun hs => ?_
  have hpath := argstr_spec hs
  rw [within_bind, within_touch]
  simp only [SHAREDBASE] at hsz
  constructor
  · rintro ⟨-, h⟩
    have hlast := (within_bind.mp (h () rfl)).1
    have := within_touch.mp hlast _ (List.mem_singleton_self _)
    simp only [UINTS] at this
    omega
  · intro h
    refine ⟨fun x hx => ?_, fun _ _ => within_bind.mpr ⟨within_touch.mpr ?_, fun _ _ =>
      within_pure _⟩⟩
    · obtain ⟨q, hq, rfl⟩ := List.mem_map.mp hx
      have hoff : q.1 ∈ (strncpy memo (toInt lmemo).toNat).map Prod.fst := List.mem_map_of_mem hq
      rw [strncpy_offsets, List.mem_range] at hoff
      simp only [UINTS]
      rw [Nat.mod_eq_of_lt (by omega)]
      omega
    · simp only [List.mem_singleton, forall_eq, UINTS]
      omega

/-- **System calls and user memory.** For every process below the shared window and every call the
arguments vouch only for its memory, and the call touches nothing else if and only if it is not a
`sys_getmemo` of a memo that does not fit behind `path`. -/
theorem confined_iff (u : User) (hsz : u.sz < SHAREDBASE) (call : Call) :
    Confined u call ↔ ∀ memo lmemo, call = .getmemo memo lmemo →
      ∀ path len, (u.argstr 0).result = some (path, len) →
        0 ≤ path + toInt lmemo ∧ path + toInt lmemo < u.sz := by
  have hbuf : ∀ n p, (u.argint 2).result = some n → (u.argptr 1 (toInt n)).result = some p →
      p + n ≤ u.sz := by
    intro n p hn hp
    obtain ⟨h₀, h₁⟩ := argptr_spec hsz (toInt_lt n (argint_lt hn)) hp
    unfold toInt at h₀ h₁
    have := argint_lt hn
    split_ifs at h₀ h₁ <;> omega
  have hall : Confined u call ↔ (call.run u).Within u.sz := by
    refine ⟨Confined.touched, fun h => ⟨fun n v hv => mem_bytes hsz.le (argint_spec hsz hv),
      fun n size p hsize hp => mem_bytes hsz.le (argptr_spec hsz hsize hp).2,
      fun n p len hs => mem_bytes hsz.le (argstr_spec hs), h⟩⟩
  rw [hall]
  cases call with
  | read =>
    refine ⟨by simp, fun _ => ?_⟩
    refine within_bind.mpr ⟨argfd_within hsz 0, fun f _ => within_bind.mpr ⟨argint_within hsz 2,
      fun n hn => within_bind.mpr ⟨argptr_within hsz 1 _, fun p hp => ?_⟩⟩⟩
    exact fileread_within hsz.le f (hbuf n p hn hp)
  | write =>
    refine ⟨by simp, fun _ => ?_⟩
    refine within_bind.mpr ⟨argfd_within hsz 0, fun f _ => within_bind.mpr ⟨argint_within hsz 2,
      fun n hn => within_bind.mpr ⟨argptr_within hsz 1 _, fun p hp => ?_⟩⟩⟩
    exact filewrite_within hsz.le f (hbuf n p hn hp)
  | fstat =>
    refine ⟨by simp, fun _ => ?_⟩
    refine within_bind.mpr ⟨argfd_within hsz 0, fun f _ => within_bind.mpr
      ⟨argptr_within hsz 1 20, fun st hst => ?_⟩⟩
    exact filestat_within hsz.le f (argptr_spec hsz (by decide) hst).2
  | pipe ok =>
    refine ⟨by simp, fun _ => ?_⟩
    refine within_bind.mpr ⟨argptr_within hsz 0 8, fun fd hfd => ?_⟩
    have h8 : fd + 8 ≤ u.sz := (argptr_spec hsz (by decide) hfd).2
    exact within_bind.mpr ⟨within_require, fun _ _ => within_bind.mpr
      ⟨within_touch.mpr (mem_bytes hsz.le (by omega)), fun _ _ => within_bind.mpr
        ⟨within_touch.mpr (mem_bytes hsz.le (by omega)), fun _ _ => within_pure _⟩⟩⟩
  | getmemo memo lmemo =>
    refine (sysGetmemoAt_within_iff hsz memo lmemo).trans ⟨fun h memo' lmemo' he => ?_, fun h =>
      h memo lmemo rfl⟩
    obtain ⟨-, rfl⟩ := Call.getmemo.inj he
    exact h

/-- A process of one page that passes the last byte of it, a NUL. -/
def tightUser : User where
  sz := 4096
  esp := 0
  mem a := byte (if a = 4 then 255 else if a = 5 then 15 else 0)
  ofile _ := none

theorem confined_iff_fits : Confined tightUser (.getmemo (fun _ => 97) 0) :=
  (confined_iff tightUser (by decide) _).mpr fun memo lmemo he path len hs => by
    obtain ⟨-, rfl⟩ := Call.getmemo.inj he
    have := argstr_spec hs
    rw [show toInt ((0 : Fin (2 ^ 32)) : ℕ) = 0 from rfl]
    omega

/-- With five bytes in the memo `sys_getmemo` writes behind the end of its memory. -/
theorem getmemo_overruns : tightUser.sz < SHAREDBASE ∧
    4096 ∈ ((Call.getmemo (fun _ => 97) 5).run tightUser).touched ∧
    ¬ Confined tightUser (.getmemo (fun _ => 97) 5) := by
  have hmem : 4096 ∈ ((Call.getmemo (fun _ => 97) 5).run tightUser).touched := by decide +kernel
  exact ⟨by decide, hmem, fun h => absurd (h.touched _ hmem) (by decide)⟩

end Syscall

end OsPlayground
