import OsPlayground.Lib.Run
import OsPlayground.Scsh.Store

/-!
# The function table

`struct shared` and `defunc` on the bytes of the two shared pages. Nothing in `defunc` checks that what
is stored fits.

* `defunc`: as the code does it; a write outside the pages that are mapped ends the child.
* `Table`, `Shell.Unchanged`, `Sound`: a table that is well formed, and what a `defun` should leave.
* `defunc_spec`, `Stocked`: what `defunc` does where there is room, and the invariant.
* **`table_of_fits`**: runs in which every `defun` meets `Room`.
-/

namespace OsPlayground

open Lib

namespace Scsh

/-! ## The code -/

abbrev MAXFUNC : ℕ := 20
abbrev MAXFUNNAME : ℕ := 10

/-- `sizeof(struct func)`. -/
abbrev FUNCSIZE : ℕ := 120

/-- `sizeof(struct shared)`. -/
abbrev SHAREDSIZE : ℕ := 2508

/-- `&sh->funcs[i]`, a pointer of 32 bits. -/
def func (i : ℕ) : ℕ := (SHARE + 4 + FUNCSIZE * i) % 2 ^ 32

/-- `&sh->top`. -/
abbrev TOP : ℕ := SHARE + 2504

/-- `(defun name (params) body)`. -/
structure Defun where
  name : List ℕ
  params : List (List ℕ)
  body : Exp
  argc_le : params.length ≤ MAXARGS
  parsed : Parsed body

/-- A `defun` on the command line. -/
structure DefunLine where
  defun : Defun
  /-- Whether `getsharem(1)` maps the page 0 for the child. `getshared(0)` returns at once where the
  process slot of the child still has the `sharedrec[0]` of an earlier process: `fork` clears it from
  index 1 on only. -/
  fresh : Bool

/-- The end of the shared pages that are mapped for the child. -/
def DefunLine.limit (c : DefunLine) : ℕ := if c.fresh then KERNBASE else KERNBASE - PGSIZE

/-- The loop over the parameters, from index `i` on. -/
def copyParams (hi fn : ℕ) : ℕ → List (List ℕ) → Bytes → Except Bytes Bytes
  | i, [], m =>
    -- past the elements that the parser set
    if i < word m (fn + 112) ∧ word m (fn + 112) < 2 ^ 31 then .error m else .ok m
  | i, s :: l, m =>
    if i < word m (fn + 112) ∧ word m (fn + 112) < 2 ^ 31 then do
      let m ← strcpy hi (fn + 10 + MAXARGL * i) s m
      copyParams hi fn (i + 1) l m
    else .ok m

/-- `defunc`. -/
def defunc (hi : ℕ) (d : Defun) (m : Bytes) : Except Bytes Bytes := do
  let fn := func (word m SHARE)
  let m ← setWord hi SHARE (word m SHARE + 1) m
  let m ← strcpy hi fn d.name m
  let m ← setWord hi (fn + 112) d.params.length m
  let st := word m TOP
  let m ← storeexp hi TOP d.body m
  let m ← setWord hi (fn + 116) st m
  copyParams hi fn 0 d.params m

/-- The first lines of `main`, for the pages as `getsharem` returns them. -/
def init (m : Bytes) : Bytes := putLE (putLE m SHARE 4 0) TOP 4 (SHARE + SHAREDSIZE)

/-- What the child leaves in the shared pages, whether it came to its end or not. -/
def left : Except Bytes Bytes → Bytes
  | .ok m => m
  | .error m => m

/-- The shared pages. -/
structure Shell where
  mem : Bytes
  /-- History variable: the functions whose `defun` had room. -/
  defs : List Defun

/-- The function fits into the pages that the child has. -/
structure Room (s : Shell) (c : DefunLine) : Prop where
  nfunc : word s.mem SHARE < MAXFUNC
  name : c.defun.name.length < MAXFUNNAME
  params : ∀ s ∈ c.defun.params, s.length < MAXARGL
  body : word s.mem TOP + c.defun.body.size ≤ c.limit

instance (s : Shell) (c : DefunLine) : Decidable (Room s c) :=
  decidable_of_iff (word s.mem SHARE < MAXFUNC ∧ c.defun.name.length < MAXFUNNAME ∧
      (∀ s ∈ c.defun.params, s.length < MAXARGL) ∧ word s.mem TOP + c.defun.body.size ≤ c.limit)
    ⟨fun h => ⟨h.1, h.2.1, h.2.2.1, h.2.2.2⟩, fun h => ⟨h.nfunc, h.name, h.params, h.body⟩⟩

/-- A line with a `defun`. -/
def define (c : DefunLine) (s : Shell) : Option Shell :=
  some ⟨left (defunc c.limit c.defun s.mem), if Room s c then s.defs ++ [c.defun] else s.defs⟩

/-! ## What a `defun` should leave -/

/-- The entry `i` for the function `d`. -/
structure Entered (m : Bytes) (i : ℕ) (d : Defun) : Prop where
  name : StrAt m (func i) d.name
  name_lt : d.name.length < MAXFUNNAME
  argc : word m (func i + 112) = d.params.length
  argc_le : d.params.length ≤ MAXARGS
  params : ∀ k (h : k < d.params.length), StrAt m (func i + 10 + MAXARGL * k) d.params[k]
  params_lt : ∀ s ∈ d.params, s.length < MAXARGL
  nodes : ∀ b ∈ blocks m d.body (word m (func i + 116)), SHARE ≤ b.1 ∧ b.1 + b.2 ≤ KERNBASE

/-- The table is well formed. -/
structure Table (s : Shell) : Prop where
  nfunc : word s.mem SHARE = s.defs.length
  nfunc_le : s.defs.length ≤ MAXFUNC
  le_top : SHARE ≤ word s.mem TOP
  top_le : word s.mem TOP ≤ KERNBASE
  entered : ∀ i (h : i < s.defs.length), Entered s.mem i s.defs[i]

/-- The entries and bodies of `s` are as they were. -/
def Shell.Unchanged (s s' : Shell) : Prop :=
  ∀ i (h : i < s.defs.length),
    ∀ b ∈ (func i, FUNCSIZE) :: blocks s.mem s.defs[i].body (word s.mem (func i + 116)),
      ∀ q, b.1 ≤ q → q < b.1 + b.2 → s'.mem q = s.mem q

/-- What a `defun` should do to the table. -/
structure Sound (s : Shell) (c : DefunLine) (s' : Shell) : Prop where
  table : Table s'
  unchanged : s.Unchanged s'
  full : ¬ Room s c → s'.mem = s.mem

/-! ## What `defunc` does -/

section Spec

variable {m m' : Bytes} {fn hi i n q : ℕ} {l : List (List ℕ)} {d : Defun}

theorem func_eq (h : i ≤ MAXFUNC) : func i = SHARE + 4 + FUNCSIZE * i := by
  have hle : i ≤ 20 := h
  have hS : SHARE = 2147475456 := rfl
  refine Nat.mod_eq_of_lt ?_
  simp only [FUNCSIZE]
  omega

/-- **The parameters.** -/
theorem copyParams_spec (hfn : SHARE ≤ fn) (hend : fn + 120 ≤ hi)
    (hl : ∀ s ∈ l, s.length < MAXARGL) (hle : i + l.length ≤ MAXARGS)
    (hargc : word m (fn + 112) = i + l.length) :
    ∃ m', copyParams hi fn i l m = .ok m' ∧
      (∀ k (h : k < l.length), StrAt m' (fn + 10 + MAXARGL * (i + k)) l[k]) ∧
      ∀ q, q < fn + 10 + MAXARGL * i ∨ fn + 110 ≤ q → m' q = m q := by
  induction l generalizing i m with
  | nil =>
    rw [List.length_nil, Nat.add_zero] at hargc
    refine ⟨m, ?_, fun k h => absurd h (Nat.not_lt_zero k), fun _ _ => rfl⟩
    rw [copyParams, hargc, if_neg fun h => lt_irrefl i h.1]
  | cons s l ih =>
    simp only [List.length_cons, MAXARGS] at hle hargc
    have hs : s.length < 10 := hl s List.mem_cons_self
    let m₁ := putStr (fn + 10 + MAXARGL * i) s m
    have hargc₁ : word m₁ (fn + 112) = i + 1 + l.length := by
      rw [word_putStr_of_out (Or.inr (by simp only [MAXARGL]; omega)), hargc]
      omega
    obtain ⟨m', hm', hparams, hrest⟩ := ih (m := m₁) (i := i + 1)
      (fun t ht => hl t (List.mem_cons_of_mem _ ht)) (by simp only [MAXARGS]; omega) hargc₁
    simp only [MAXARGL] at hrest
    refine ⟨m', ?_, fun k h => ?_, fun q hq => ?_⟩
    · rw [copyParams, hargc, if_pos ⟨by omega, by omega⟩,
        strcpy_ok (by omega) (by simp only [MAXARGL]; omega), ok_bind]
      exact hm'
    · cases k with
      | zero =>
        refine strAt_congr (fun q hq hq' => hrest q (Or.inl ?_)) strAt_putStr
        simp only [MAXARGL, List.getElem_cons_zero] at hq'
        omega
      | succ k =>
        have := hparams k (Nat.lt_of_succ_lt_succ h)
        rwa [show i + 1 + k = i + (k + 1) by omega] at this
    · simp only [MAXARGL] at hq
      rw [hrest q (by omega)]
      exact putStr_of_out (by simp only [MAXARGL]; omega)

/-- The entry `i` holds the function `d`, whose body is at `st`. -/
structure Filed (m : Bytes) (i : ℕ) (d : Defun) (st : ℕ) : Prop where
  name : StrAt m (func i) d.name
  name_lt : d.name.length < MAXFUNNAME
  argc : word m (func i + 112) = d.params.length
  params : ∀ k (h : k < d.params.length), StrAt m (func i + 10 + MAXARGL * k) d.params[k]
  params_lt : ∀ s ∈ d.params, s.length < MAXARGL
  sexp : word m (func i + 116) = st
  laid : Laid m d.body st

variable {st : ℕ}

theorem Filed.congr (h : Filed m i d st) (he : ∀ q, func i ≤ q → q < func i + FUNCSIZE → m' q = m q)
    (hb : ∀ q, st ≤ q → q < st + d.body.size → m' q = m q) : Filed m' i d st := by
  have hname : d.name.length < 10 := h.name_lt
  have hargc : d.params.length ≤ 10 := d.argc_le
  simp only [FUNCSIZE] at he
  refine ⟨strAt_congr (fun q hq hq' => he q hq (by omega)) h.name, h.name_lt, ?_, fun k hk => ?_,
    h.params_lt, ?_, laid_congr d.parsed hb h.laid⟩
  · rw [word_congr fun q hq hq' => he q (by omega) (by omega), h.argc]
  · have hlen : d.params[k].length < 10 := h.params_lt _ (List.getElem_mem hk)
    refine strAt_congr (fun q hq hq' => he q (by omega) ?_) (h.params k hk)
    simp only [MAXARGL] at hq'
    omega
  · rw [word_congr fun q hq hq' => he q (by omega) (by omega), h.sexp]

/-- After `d` was stored as the function `n`, its body at `st`. -/
structure Defined (n st : ℕ) (m m' : Bytes) (d : Defun) : Prop where
  nfunc : word m' SHARE = n + 1
  top : word m' TOP = st + d.body.size
  filed : Filed m' n d st
  rest : ∀ q, SHARE + 4 ≤ q → q < func n ∨ func n + FUNCSIZE ≤ q → q < TOP ∨ TOP + 4 ≤ q →
    q < st ∨ st + d.body.size ≤ q → m' q = m q

/-- **`defunc`** where there is room. -/
theorem defunc_spec (hhi : hi ≤ KERNBASE) (hn : word m SHARE = n) (hlt : n < MAXFUNC)
    (hname : d.name.length < MAXFUNNAME) (hparams : ∀ s ∈ d.params, s.length < MAXARGL)
    (htop : word m TOP = st) (hst : SHARE + SHAREDSIZE ≤ st) (hroom : st + d.body.size ≤ hi) :
    ∃ m', defunc hi d m = .ok m' ∧ Defined n st m m' d := by
  have hS : SHARE = 2147475456 := rfl
  have hK : KERNBASE = 2147483648 := rfl
  have hT : TOP = 2147477960 := rfl
  have hfn : func n = 2147475460 + 120 * n := func_eq hlt.le
  have hlt' : n < 20 := hlt
  have hname' : d.name.length < 10 := hname
  have hargc : d.params.length ≤ 10 := d.argc_le
  simp only [SHAREDSIZE] at hst
  let m₁ := putLE m SHARE 4 (n + 1)
  let m₂ := putStr (func n) d.name m₁
  let m₃ := putLE m₂ (func n + 112) 4 d.params.length
  have htop₃ : word m₃ TOP = st := by
    rw [word_put_of_out (by omega), word_putStr_of_out (by omega), word_put_of_out (by omega), htop]
  obtain ⟨m₄, hm₄, h₄⟩ := storeexp_spec hhi (p := TOP) (m := m₃) d.parsed (by omega) (by omega) htop₃ hroom
  let m₅ := putLE m₄ (func n + 116) 4 st
  have hlow : ∀ q, q < func n + 116 → m₅ q = m₃ q := fun q hq =>
    (putLE_of_out (Or.inl hq)).trans (h₄.rest q (by omega) (by omega))
  have hargc₅ : word m₅ (func n + 112) = 0 + d.params.length := by
    rw [word_congr fun q hq hq' => hlow q (by omega), Nat.zero_add]
    exact word_put (by omega)
  obtain ⟨m₆, hm₆, hpar, hrest⟩ := copyParams_spec (i := 0) (m := m₅)
    (show SHARE ≤ func n by omega) (show func n + 120 ≤ hi by omega) hparams (by simp only [MAXARGS]; omega) hargc₅
  simp only [Nat.mul_zero, Nat.add_zero] at hrest
  have hhigh : ∀ q, TOP ≤ q → m₆ q = m₄ q := fun q hq =>
    (hrest q (by omega)).trans (putLE_of_out (by omega))
  refine ⟨m₆, ?_, ⟨?_, ?_, ⟨?_, hname, ?_, ?_, hparams, ?_, ?_⟩, fun q hq hf ht hb => ?_⟩⟩
  · rw [defunc, hn, setWord_ok le_rfl (by omega), ok_bind, strcpy_ok (by omega) (by omega), ok_bind,
      setWord_ok (by omega) (by omega), ok_bind,
      show word (putLE (putStr (func n) d.name (putLE m SHARE 4 (n + 1))) (func n + 112) 4
        d.params.length) TOP = st from htop₃, hm₄, ok_bind, setWord_ok (by omega) (by omega), ok_bind]
    exact hm₆
  · rw [word_congr fun q hq hq' => (hrest q (by omega)).trans (hlow q (by omega)),
      word_put_of_out (by omega), word_putStr_of_out (by omega)]
    exact word_put (by omega)
  · rw [word_congr fun q hq hq' => hhigh q hq, h₄.top]
  · refine strAt_congr (m := m₂) (fun q hq hq' => ?_) strAt_putStr
    rw [hrest q (by omega), hlow q (by omega)]
    exact putLE_of_out (by omega)
  · rw [word_congr fun q hq hq' => hrest q (by omega), hargc₅, Nat.zero_add]
  · intro k hk
    have := hpar k hk
    rwa [Nat.zero_add] at this
  · rw [word_congr fun q hq hq' => hrest q (by omega)]
    exact word_put (by omega)
  · exact laid_congr d.parsed (fun q hq hq' => hhigh q (by omega)) h₄.laid
  · simp only [FUNCSIZE] at hf
    rw [hrest q (by omega), show m₅ q = m₄ q from putLE_of_out (by omega), h₄.rest q ht hb,
      show m₃ q = m₂ q from putLE_of_out (by omega), show m₂ q = m₁ q from putStr_of_out (by omega)]
    exact putLE_of_out (by omega)

end Spec

/-! ## Runs -/

/-- **The invariant**: the bodies lie between `struct shared` and `top`. -/
structure Stocked (s : Shell) : Prop where
  nfunc : word s.mem SHARE = s.defs.length
  nfunc_le : s.defs.length ≤ MAXFUNC
  le_top : SHARE + SHAREDSIZE ≤ word s.mem TOP
  top_le : word s.mem TOP ≤ KERNBASE
  filed : ∀ i (h : i < s.defs.length), ∃ st, Filed s.mem i s.defs[i] st ∧ SHARE + SHAREDSIZE ≤ st ∧
    st + s.defs[i].body.size ≤ word s.mem TOP

section Runs

variable {s s' : Shell} {c : DefunLine} {m : Bytes}

theorem stocked_init : Stocked ⟨init m, []⟩ where
  nfunc := (word_put_of_out (Or.inl (by decide))).trans (word_put (Nat.zero_le _))
  nfunc_le := Nat.zero_le _
  le_top := (word_put (by decide)).ge
  top_le := (word_put (by decide)).le.trans (by decide)
  filed := fun i h => absurd h (Nat.not_lt_zero i)

theorem Stocked.table (h : Stocked s) : Table s where
  nfunc := h.nfunc
  nfunc_le := h.nfunc_le
  le_top := le_trans (Nat.le_add_right _ _) h.le_top
  top_le := h.top_le
  entered := fun i hi => by
    obtain ⟨st, hf, hst, hend⟩ := h.filed i hi
    refine ⟨hf.name, hf.name_lt, hf.argc, Defun.argc_le _, hf.params, hf.params_lt, fun b hb => ?_⟩
    rw [hf.sexp] at hb
    obtain ⟨hb₁, hb₂⟩ := hf.laid.inside b hb
    exact ⟨le_trans (Nat.le_add_right _ _) (hst.trans hb₁), (hb₂.trans hend).trans h.top_le⟩

theorem limit_le (c : DefunLine) : c.limit ≤ KERNBASE := by
  rw [DefunLine.limit]
  split_ifs
  · exact le_rfl
  · exact Nat.sub_le _ _

theorem Stocked.defined (h : Stocked s) (hr : Room s c) : ∃ m',
    define c s = some ⟨m', s.defs ++ [c.defun]⟩ ∧
      Defined s.defs.length (word s.mem TOP) s.mem m' c.defun := by
  obtain ⟨m', hm', hd⟩ := defunc_spec (limit_le c) h.nfunc (h.nfunc ▸ hr.nfunc) hr.name hr.params rfl
    h.le_top hr.body
  exact ⟨m', by rw [Scsh.define, hm', if_pos hr, left], hd⟩

/-- What a `defun` that fits leaves alone. -/
theorem Stocked.define (h : Stocked s) (hr : Room s c) (hs : define c s = some s') :
    Stocked s' ∧ s.Unchanged s' := by
  have hS : SHARE = 2147475456 := rfl
  have hT : TOP = 2147477960 := rfl
  obtain ⟨m', hm', hd⟩ := h.defined hr
  have hlt : s.defs.length < 20 := h.nfunc ▸ hr.nfunc
  have hle := h.le_top
  simp only [SHAREDSIZE] at hle
  obtain rfl := Option.some.inj (hm'.symm.trans hs)
  have hfn : ∀ i ≤ MAXFUNC, func i = 2147475460 + 120 * i := fun i hi => func_eq hi
  have hn := hfn s.defs.length hlt.le
  have hentry : ∀ i < s.defs.length, ∀ q, func i ≤ q → q < func i + FUNCSIZE → m' q = s.mem q := by
    intro i hi q hq hq'
    have := hfn i (hi.trans hlt).le
    simp only [FUNCSIZE] at hq'
    exact hd.rest q (by omega) (Or.inl (by omega)) (Or.inl (by omega)) (Or.inl (by omega))
  have hbody : ∀ q, SHARE + SHAREDSIZE ≤ q → q < word s.mem TOP → m' q = s.mem q := by
    intro q hq hq'
    simp only [SHAREDSIZE] at hq
    exact hd.rest q (by omega) (Or.inr (by simp only [FUNCSIZE]; omega)) (Or.inr (by omega))
      (Or.inl hq')
  constructor
  · refine ⟨?_, ?_, ?_, ?_, fun i hi => ?_⟩
    · rw [List.length_append, List.length_singleton]
      exact hd.nfunc
    · rw [List.length_append, List.length_singleton]
      exact hlt
    · exact le_trans h.le_top (le_trans (Nat.le_add_right _ _) hd.top.ge)
    · exact hd.top.le.trans (hr.body.trans (limit_le c))
    · have htop : word m' TOP = word s.mem TOP + c.defun.body.size := hd.top
      simp only [List.length_append, List.length_singleton] at hi
      rcases Nat.lt_succ_iff_lt_or_eq.1 hi with hlt' | rfl
      · obtain ⟨st, hf, hst, hend⟩ := h.filed i hlt'
        simp only [List.getElem_append_left hlt', htop]
        exact ⟨st, hf.congr (hentry i hlt') fun q hq hq' => hbody q (hst.trans hq) (by omega), hst,
          by omega⟩
      · simp only [List.getElem_concat_length, htop]
        exact ⟨_, hd.filed, h.le_top, le_rfl⟩
  · intro i hi b hb q hq hq'
    rcases List.mem_cons.1 hb with rfl | hb
    · exact hentry i hi q hq hq'
    · obtain ⟨st, hf, hst, hend⟩ := h.filed i hi
      rw [hf.sexp] at hb
      obtain ⟨hb₁, hb₂⟩ := hf.laid.inside b hb
      exact hbody q (hst.trans (hb₁.trans hq)) (by omega)

/-- The lines `cs` have room after `n` functions, with `top` the store pointer. -/
def RoomFrom : ℕ → ℕ → List DefunLine → Prop
  | _, _, [] => True
  | n, top, c :: cs => (n < MAXFUNC ∧ c.defun.name.length < MAXFUNNAME ∧
      (∀ s ∈ c.defun.params, s.length < MAXARGL) ∧ top + c.defun.body.size ≤ c.limit) ∧
    RoomFrom (n + 1) (top + c.defun.body.size) cs

theorem along_room {cs : List DefunLine} (h : Stocked s)
    (hr : RoomFrom s.defs.length (word s.mem TOP) cs) :
    Along Scsh.define (fun s c _ => Room s c) cs s := by
  induction cs generalizing s with
  | nil => exact trivial
  | cons c cs ih =>
    obtain ⟨⟨hn, hname, hparams, hbody⟩, hrest⟩ := hr
    have hroom : Room s c := ⟨h.nfunc.trans_lt hn, hname, hparams, hbody⟩
    intro s' hs
    obtain ⟨m', hm', hd⟩ := h.defined hroom
    have hst := (h.define hroom hs).1
    obtain rfl := Option.some.inj (hm'.symm.trans hs)
    refine ⟨hroom, ih hst ?_⟩
    rw [hd.top, List.length_append]
    exact hrest

/-- **A well-formed table**: where every `defun` has room, the table is well formed after each one, and
what was stored before is unchanged. -/
theorem table_of_fits {cs : List DefunLine} (m : Bytes)
    (h : Along define (fun s c _ => Room s c) cs ⟨init m, []⟩) :
    Along define Sound cs ⟨init m, []⟩ :=
  along_of_along (fun _ _ _ hi hr hs => (hi.define hr hs).1)
    (fun _ _ _ hi hr hs => ⟨(hi.define hr hs).1.table, (hi.define hr hs).2, fun h => absurd hr h⟩)
    stocked_init h

end Runs

/-- `(defun f (x y) (echo x '(y)))` -/
def echoDefun : Defun where
  name := str "f"
  params := [str "x", str "y"]
  body := echoBody
  argc_le := by decide
  parsed := parsed_echoBody

/-- `(defun s () '())` -/
def emptyDefun (s : String) : Defun where
  name := str s
  params := []
  body := .list .LIST []
  argc_le := Nat.zero_le _
  parsed := .list (Nat.zero_le _) fun _ h => absurd h List.not_mem_nil

/-- Three functions, with the page 0 only for the first. -/
theorem table_of_fits_three : Along define Sound
    [⟨echoDefun, true⟩, ⟨emptyDefun "g", false⟩, ⟨{ echoDefun with name := str "h" }, false⟩]
      ⟨init fun _ => 0, []⟩ := by
  refine table_of_fits _ (along_room stocked_init ?_)
  have htop : word (init fun _ => 0) TOP = SHARE + SHAREDSIZE := word_put (by decide)
  rw [htop]
  exact ⟨by decide, by decide, by decide, trivial⟩

/-- A name of ten characters is not refused. -/
theorem not_sound : ¬ ∀ (m : Bytes) (cs : List DefunLine), Along define Sound cs ⟨init m, []⟩ := by
  intro hall
  have hs := (hall (fun _ => 0) [⟨emptyDefun "abcdefghij", true⟩] _ rfl).1
  have hfull := hs.full fun h => absurd h.name (by decide)
  exact absurd (congrFun hfull SHARE) (by decide)

end Scsh

end OsPlayground
