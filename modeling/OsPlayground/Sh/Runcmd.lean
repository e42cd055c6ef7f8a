import Mathlib.Data.List.GetD
import OsPlayground.Proc.Model
import OsPlayground.Sh.Roundtrip

/-!
# Running a command

`runcmd` of `sh.c` with the descriptors of the processes that it makes.

* `Fds`: `close`, `dup`, `open` and `pipe` on the descriptors of a process.
* `runcmd`: every process of a command, up to its `exec` or its last `wait`.
* `Tree.meaning`: what a command says: the programs, and where each of them reads and writes.
* **`sh_meaning`**: from every way to write a command down, the shell does what the command says.
* **`pipe_ends`**: no process has the end of a pipe that is not its own.

A process that runs a command is named by the place of the command in the tree. It makes one pipe at
most, so its place names that too.
-/

namespace OsPlayground

namespace Sh

open Scsh (At at_append at_cons bytesOf)

/-! ## Descriptors -/

/-- The subcommands down to one: `false` for the left or the only one. -/
abbrev Place := List Bool

/-- What a descriptor is open on. -/
inductive Desc
  /-- What the shell had at first. -/
  | inherited (fd : ℕ)
  /-- Opened by the process at the place. -/
  | file (place : Place) (name : List ℕ) (mode : ℕ)
  | readEnd (place : Place)
  | writeEnd (place : Place)
  deriving DecidableEq

/-- `p->ofile` of a process. -/
abbrev Fds := ℕ → Option Desc

/-- `fdalloc`. -/
def fdalloc (f : Desc) (t : Fds) : Option (ℕ × Fds) :=
  ((List.range NOFILE).find? fun fd => (t fd).isNone).map fun fd =>
    (fd, Function.update t fd (some f))

/-- `close`, of a descriptor that may not be open. -/
def close (fd : ℕ) (t : Fds) : Fds := fun i => if i = fd then none else t i

/-- `dup`, when its result is not looked at. -/
def dup (fd : ℕ) (t : Fds) : Fds :=
  match t fd with
  | none => t
  | some f =>
    match fdalloc f t with
    | none => t
    | some (_, t) => t

/-- `pipe`: `p[0]`, `p[1]` and the descriptors. -/
def pipe (place : Place) (t : Fds) : Option (ℕ × ℕ × Fds) :=
  match fdalloc (.readEnd place) t with
  | none => none
  | some (p0, t) =>
    match fdalloc (.writeEnd place) t with
    | none => none
    | some (p1, t) => some (p0, p1, t)

/-! ## The code -/

/-- What the kernel grants: that a file is opened, that there is room for a pipe, and that the first or
the second `fork` succeeds. -/
structure Luck where
  opens : Place → Bool
  pipes : Place → Bool
  forks : Place → Bool → Bool

/-- What the process at the place does, with its descriptors. -/
inductive Run
  /-- It exits. -/
  | exits
  | exec (place : Place) (argv : List (List ℕ)) (t : Fds)
  /-- It waits for the first, and then does what the second does. -/
  | list (place : Place) (left right : Run) (t : Fds)
  /-- It waits for both. -/
  | pipe (place : Place) (left right : Run) (t : Fds)
  /-- It exits while the other goes on. -/
  | back (cmd : Run)

/-- The processes with the descriptors that they keep. -/
def Run.procs : Run → List (Place × Fds)
  | .exits => []
  | .exec place _ t => [(place, t)]
  | .list place left right t => (place, t) :: (left.procs ++ right.procs)
  | .pipe place left right t => (place, t) :: (left.procs ++ right.procs)
  | .back cmd => cmd.procs

/-- `runcmd`, where `str` are the strings. -/
def runcmd (luck : Luck) (str : ℕ → List ℕ) : Cmd → Place → Fds → Run
  | .EXEC argv, place, t =>
    if argv.isEmpty = true then .exits else .exec place (argv.map fun a => str a.1) t
  | .REDIR cmd file _ mode fd, place, t =>
    if luck.opens place = true then
      match fdalloc (.file place (str file) mode) (close fd t) with
      | none => .exits
      | some (_, t) => runcmd luck str cmd (place ++ [false]) t
    else .exits
  | .LIST left right, place, t =>
    if luck.forks place false = true then
      .list place (runcmd luck str left (place ++ [false]) t)
        (runcmd luck str right (place ++ [true]) t) t
    else .exits
  | .PIPE left right, place, t =>
    if luck.pipes place = true then
      match pipe place t with
      | none => .exits
      | some (p0, p1, t) =>
        if luck.forks place false = true then
          let l := runcmd luck str left (place ++ [false])
            (close p1 (close p0 (dup p1 (close 1 t))))
          if luck.forks place true = true then
            .pipe place l (runcmd luck str right (place ++ [true])
              (close p1 (close p0 (dup p0 (close 0 t))))) (close p1 (close p0 t))
          else .back l
        else .exits
    else .exits
  | .BACK cmd, place, t =>
    if luck.forks place false = true then .back (runcmd luck str cmd (place ++ [false]) t)
    else .exits

/-- The string at `q`, of at most `k` bytes. -/
def text (mem : ℕ → ℕ) : ℕ → ℕ → List ℕ
  | 0, _ => []
  | k + 1, q => if mem q = 0 then [] else mem q :: text mem k (q + 1)

/-! ## What a command says -/

/-- Descriptors 0, 1 and 2. -/
structure Streams where
  stdin : Desc
  stdout : Desc
  stderr : Desc

namespace Streams

/-- The descriptors of a process that has nothing else open. -/
def fds (s : Streams) : Fds := fun i =>
  if i = 0 then some s.stdin else if i = 1 then some s.stdout else if i = 2 then some s.stderr
  else none

/-- `close(rcmd->fd)` and the `open` after it. -/
def redirect (s : Streams) : Dir → Desc → Streams
  | .input, d => { s with stdin := d }
  | .output, d => { s with stdout := d }

end Streams

/-- The meaning of a command that reads and writes `s`. -/
def Tree.meaning (luck : Luck) : Tree → Place → Streams → Run
  | .exec argv, place, s => if argv = [] then .exits else .exec place argv s.fds
  | .redir cmd dir file, place, s =>
    if luck.opens place = true then
      cmd.meaning luck (place ++ [false]) (s.redirect dir (.file place file dir.mode))
    else .exits
  | .list left right, place, s =>
    if luck.forks place false = true then
      .list place (left.meaning luck (place ++ [false]) s) (right.meaning luck (place ++ [true]) s)
        s.fds
    else .exits
  | .pipe left right, place, s =>
    if luck.pipes place = true ∧ luck.forks place false = true then
      let l := left.meaning luck (place ++ [false]) { s with stdout := .writeEnd place }
      if luck.forks place true = true then
        .pipe place l (right.meaning luck (place ++ [true]) { s with stdin := .readEnd place }) s.fds
      else .back l
    else .exits
  | .back cmd, place, s =>
    if luck.forks place false = true then .back (cmd.meaning luck (place ++ [false]) s) else .exits

/-! ## The descriptors of the shell -/

section Descriptors

variable {f : Desc} {t : Fds} {fd : ℕ} {s : Streams} {place : Place}

theorem fdalloc_eq (h : ((List.range NOFILE).find? fun fd => (t fd).isNone) = some fd) :
    fdalloc f t = some (fd, Function.update t fd (some f)) := by
  rw [fdalloc, h]
  rfl

theorem fdalloc_close (dir : Dir) :
    fdalloc f (close dir.fd s.fds) = some (dir.fd, (s.redirect dir f).fds) := by
  cases dir with
  | input =>
    refine (fdalloc_eq rfl).trans (congrArg (fun t => some (0, t)) (funext fun i => ?_))
    by_cases hi : i = 0
    · rw [hi, Function.update_self]
      rfl
    · rw [Function.update_of_ne hi]
      simp [close, Streams.fds, Streams.redirect, Dir.fd, hi]
  | output =>
    refine (fdalloc_eq rfl).trans (congrArg (fun t => some (1, t)) (funext fun i => ?_))
    by_cases hi : i = 1
    · rw [hi, Function.update_self]
      rfl
    · rw [Function.update_of_ne hi]
      simp [close, Streams.fds, Streams.redirect, Dir.fd, hi]

/-- The descriptors of `runcmd` after `pipe`. -/
def piped (place : Place) (s : Streams) : Fds :=
  Function.update (Function.update s.fds 3 (some (.readEnd place))) 4 (some (.writeEnd place))

theorem pipe_eq : pipe place s.fds = some (3, 4, piped place s) := by
  have hfirst : fdalloc (.readEnd place) s.fds =
      some (3, Function.update s.fds 3 (some (.readEnd place))) := fdalloc_eq rfl
  have hsecond : fdalloc (.writeEnd place) (Function.update s.fds 3 (some (.readEnd place))) =
      some (4, piped place s) := fdalloc_eq rfl
  rw [pipe, hfirst]
  dsimp only
  rw [hsecond]

theorem dup_eq {k : ℕ} (hf : t fd = some f)
    (hk : ((List.range NOFILE).find? fun fd => (t fd).isNone) = some k) :
    dup fd t = Function.update t k (some f) := by
  rw [dup, hf]
  dsimp only
  rw [fdalloc_eq hk]

theorem close_piped : close 4 (close 3 (piped place s)) = s.fds := by
  funext i
  rcases i with _ | _ | _ | _ | _ | i <;> rfl

theorem close_left : close 4 (close 3 (dup 4 (close 1 (piped place s)))) =
    ({ s with stdout := .writeEnd place } : Streams).fds := by
  rw [dup_eq (f := .writeEnd place) rfl rfl]
  funext i
  rcases i with _ | _ | _ | _ | _ | i <;> rfl

theorem close_right : close 4 (close 3 (dup 3 (close 0 (piped place s)))) =
    ({ s with stdin := .readEnd place } : Streams).fds := by
  rw [dup_eq (f := .readEnd place) rfl rfl]
  funext i
  rcases i with _ | _ | _ | _ | _ | i <;> rfl

end Descriptors

/-! ## The shell does what the command says -/

section Meaning

variable {luck : Luck} {str : ℕ → List ℕ} {c : Cmd} {cmd : Tree} {place : Place} {s : Streams}

/-- **`runcmd`** on a tree of the shape of the command. -/
theorem runcmd_meaning (h : Shape (fun q _ w => str q = w) c cmd) (place : Place) (s : Streams) :
    runcmd luck str c place s.fds = cmd.meaning luck place s := by
  induction h generalizing place s with
  | @exec argv ws h =>
    have hws : (argv.map fun a => str a.1) = ws := by
      induction h with
      | nil => rfl
      | cons hw _ ih => rw [List.map_cons, hw, ih]
    rw [runcmd, Tree.meaning, hws]
    cases argv with
    | nil =>
      cases h
      rfl
    | cons a argv =>
      rw [if_neg (by simp), if_neg]
      rw [← hws]
      simp
  | @redir c t q eq d w _ hw ih =>
    rw [runcmd, Tree.meaning, hw, fdalloc_close]
    dsimp only
    rw [ih]
  | pipe _ _ ihl ihr =>
    rw [runcmd, Tree.meaning, pipe_eq]
    dsimp only
    rw [close_left, close_right, close_piped, ihl, ihr, ite_and]
  | list _ _ ihl ihr => rw [runcmd, Tree.meaning, ihl, ihr]
  | back _ ih => rw [runcmd, Tree.meaning, ih]

/-! ### Strings -/

theorem text_eq {mem : ℕ → ℕ} {w : List ℕ} {q k : ℕ} (h : At mem q (w ++ [0]))
    (hw : ∀ b ∈ w, b ≠ 0) (hk : w.length ≤ k) : text mem k q = w := by
  induction w generalizing q k with
  | nil =>
    cases k with
    | zero => rfl
    | succ k => exact if_pos (h 0 (Nat.succ_pos _))
  | cons b w ih =>
    obtain ⟨k, rfl⟩ : ∃ j, k = j + 1 := ⟨k - 1, by simp only [List.length_cons] at hk; omega⟩
    obtain ⟨hb, hw⟩ := List.forall_mem_cons.mp hw
    obtain ⟨hq, htail⟩ := at_cons.1 h
    rw [text, if_neg (by rwa [hq]), hq, ih htail hw (Nat.le_of_succ_le_succ hk)]

theorem nulterminate_zero {i : ℕ} : ∀ {c : Cmd} {mem : ℕ → ℕ}, mem i = 0 →
    nulterminate c mem i = 0 := by
  have hput : ∀ {mem : ℕ → ℕ} (q : ℕ), mem i = 0 → Function.update mem q 0 i = 0 := by
    intro mem q h
    rw [Function.update_apply]
    split_ifs
    · rfl
    · exact h
  intro c
  induction c with
  | EXEC argv =>
    induction argv with
    | nil => exact id
    | cons a argv ih => exact fun h => ih (hput a.2 h)
  | REDIR c _ efile _ _ ih => exact fun h => hput _ (ih h)
  | PIPE l r ihl ihr => exact fun h => ihr (ihl h)
  | LIST l r ihl ihr => exact fun h => ihr (ihl h)
  | BACK c ih => exact ih

theorem parsecmd_zero {line : List ℕ} {c : Cmd} {mem : ℕ → ℕ} (h : parsecmd line = .ok (c, mem))
    {i : ℕ} (hi : line.length ≤ i) : mem i = 0 := by
  unfold parsecmd at h
  dsimp only at h
  rcases hl : parseline (bytesOf line) (Scsh.strlen line) (4 * Scsh.strlen line + 4) 0 with e | r
  · rw [hl] at h
    cases h
  · rw [hl] at h
    simp only [bind, Except.bind] at h
    split_ifs at h
    obtain ⟨rfl, rfl⟩ := Prod.mk.inj (Except.ok.inj h)
    exact nulterminate_zero (List.getD_eq_default _ _ hi)

theorem length_le_of_at {mem : ℕ → ℕ} {w : List ℕ} {q k : ℕ} (h : At mem q w)
    (hw : ∀ b ∈ w, b ≠ 0) (hmem : ∀ i, k ≤ i → mem i = 0) : w.length ≤ k := by
  by_contra hlt
  have hlast := h (w.length - 1) (by omega)
  rw [hmem _ (by omega)] at hlast
  exact hw _ (List.getElem_mem _) hlast.symm

theorem WordOk.ne_zero {w : List ℕ} (h : WordOk w) : ∀ b ∈ w, b ≠ 0 := fun b hb h0 => by
  have := h.chars b hb
  rw [h0] at this
  cases this

theorem Shape.words {R : ℕ → ℕ → List ℕ → Prop} (h : Shape R c cmd) (hok : cmd.Ok) :
    Shape (fun q eq w => R q eq w ∧ WordOk w) c cmd := by
  induction h with
  | exec h =>
    refine .exec ?_
    obtain ⟨-, hwords⟩ := hok
    induction h with
    | nil => exact .nil
    | cons hw _ ih =>
      obtain ⟨hok, hwords⟩ := List.forall_mem_cons.mp hwords
      exact .cons ⟨hw, hok⟩ (ih hwords)
  | redir _ hw ih => exact .redir (ih hok.1) ⟨hw, hok.2⟩
  | pipe _ _ ihl ihr => exact .pipe (ihl hok.1) (ihr hok.2)
  | list _ _ ihl ihr => exact .list (ihl hok.1) (ihr hok.2)
  | back _ ih => exact .back (ih hok)

/-- **A command line does what it says.** From every way to write a command down, the shell parses it
and runs the programs that the command names, each with its words and with the streams that the pipes
and redirections around it make, and with no other descriptor. -/
theorem sh_meaning (cmd : Tree) (h : cmd.Ok) (luck : Luck) (s : Streams) :
    Spelt cmd (print cmd) ∧ ∀ line, Spelt cmd line → ∃ c mem, parsecmd line = .ok (c, mem) ∧
      runcmd luck (text mem line.length) c [] s.fds = cmd.meaning luck [] s := by
  obtain ⟨hprint, hparse⟩ := parsecmd_print cmd h
  refine ⟨hprint, fun line hline => ?_⟩
  obtain ⟨c, mem, hc, hshape⟩ := hparse line hline
  refine ⟨c, mem, hc, runcmd_meaning (Shape.mono (fun q _ w hw => ?_) (hshape.words h)) [] s⟩
  obtain ⟨hat, hok⟩ := hw
  exact text_eq hat hok.ne_zero (length_le_of_at (at_append.1 hat).1 hok.ne_zero fun i hi =>
    parsecmd_zero hc hi)

end Meaning

/-! ## The ends of the pipes -/

section Ends

variable {luck : Luck} {str : ℕ → List ℕ} {c : Cmd} {cmd : Tree} {place : Place} {s : Streams}
  {t : Fds} {d : Desc} {fd : ℕ}

/-- The process at the place is one of those that the descriptor is for. -/
def Desc.For (place : Place) : Desc → Prop
  | .inherited _ => False
  | .file q _ _ => q <+: place
  | .writeEnd q => q ++ [false] <+: place
  | .readEnd q => q ++ [true] <+: place

/-- What a process of the command at `place` has open. -/
structure Own (place : Place) (s : Streams) (x : Place × Fds) : Prop where
  place : place <+: x.1
  few : ∀ fd, 3 ≤ fd → x.2 fd = none
  ends : ∀ fd d, x.2 fd = some d → d ∈ [s.stdin, s.stdout, s.stderr] ∨ d.For x.1

theorem own_fds (place : Place) (s : Streams) : Own place s (place, s.fds) where
  place := List.prefix_refl place
  few fd h := by
    change (if fd = 0 then _ else _) = none
    rw [if_neg (by omega), if_neg (by omega), if_neg (by omega)]
  ends fd d h := by
    change (if fd = 0 then _ else _) = some d at h
    left
    split_ifs at h
    · simp [Option.some.inj h]
    · simp [Option.some.inj h]
    · simp [Option.some.inj h]

theorem Own.up {b : Bool} {s' : Streams} {x : Place × Fds} (h : Own (place ++ [b]) s' x)
    (hs : ∀ d ∈ [s'.stdin, s'.stdout, s'.stderr],
      d ∈ [s.stdin, s.stdout, s.stderr] ∨ d.For (place ++ [b])) : Own place s x where
  place := (List.prefix_append place [b]).trans h.place
  few := h.few
  ends fd d hd := by
    rcases h.ends fd d hd with hd | hd
    · refine (hs d hd).imp_right fun hown => ?_
      cases d with
      | inherited _ => exact hown
      | file q _ _ => exact hown.trans h.place
      | readEnd q => exact hown.trans h.place
      | writeEnd q => exact hown.trans h.place
    · exact .inr hd

theorem own_meaning (cmd : Tree) : ∀ (place : Place) (s : Streams),
    ∀ x ∈ (cmd.meaning luck place s).procs, Own place s x := by
  induction cmd with
  | exec argv =>
    intro place s x hx
    rw [Tree.meaning] at hx
    split_ifs at hx
    · cases hx
    · obtain rfl := List.mem_singleton.1 hx
      exact own_fds place s
  | redir cmd dir file ih =>
    intro place s x hx
    rw [Tree.meaning] at hx
    split_ifs at hx
    · refine (ih _ _ x hx).up fun d hd => ?_
      have hfor : (Desc.file place file dir.mode).For (place ++ [false]) := List.prefix_append _ _
      cases dir
      all_goals
        simp only [Streams.redirect, List.mem_cons, List.not_mem_nil, or_false] at hd ⊢
        rcases hd with rfl | rfl | rfl <;> simp [hfor]
    · cases hx
  | pipe left right ihl ihr =>
    intro place s x hx
    have hl : ∀ y ∈ (left.meaning luck (place ++ [false])
        { s with stdout := .writeEnd place }).procs, Own place s y := fun y hy => by
      refine (ihl _ _ y hy).up fun d hd => ?_
      have hfor : (Desc.writeEnd place).For (place ++ [false]) := List.prefix_refl _
      simp only [List.mem_cons, List.not_mem_nil, or_false] at hd ⊢
      rcases hd with rfl | rfl | rfl <;> simp [hfor]
    have hr : ∀ y ∈ (right.meaning luck (place ++ [true])
        { s with stdin := .readEnd place }).procs, Own place s y := fun y hy => by
      refine (ihr _ _ y hy).up fun d hd => ?_
      have hfor : (Desc.readEnd place).For (place ++ [true]) := List.prefix_refl _
      simp only [List.mem_cons, List.not_mem_nil, or_false] at hd ⊢
      rcases hd with rfl | rfl | rfl <;> simp [hfor]
    rw [Tree.meaning] at hx
    dsimp only at hx
    split_ifs at hx
    · rcases List.mem_cons.1 hx with rfl | hx
      · exact own_fds place s
      · exact (List.mem_append.1 hx).elim (hl x) (hr x)
    · exact hl x hx
    · cases hx
  | list left right ihl ihr =>
    intro place s x hx
    rw [Tree.meaning] at hx
    split_ifs at hx
    · rcases List.mem_cons.1 hx with rfl | hx
      · exact own_fds place s
      rcases List.mem_append.1 hx with hx | hx
      · exact (ihl _ _ x hx).up fun d hd => .inl hd
      · exact (ihr _ _ x hx).up fun d hd => .inl hd
    · cases hx
  | back cmd ih =>
    intro place s x hx
    rw [Tree.meaning] at hx
    split_ifs at hx
    · exact (ih _ _ x hx).up fun d hd => .inl hd
    · cases hx

/-- The shell has its first three descriptors open. -/
def shell : Streams := ⟨.inherited 0, .inherited 1, .inherited 2⟩

/-- **Nobody keeps the end of another's pipe.** Whichever system calls fail, no process of a command
keeps more than three descriptors; the write end of a pipe stays in the left command of its `PIPE` and
the read end in the right one, so that a reader finds the end of its input when the left command is
done. -/
theorem pipe_ends (luck : Luck) (h : Shape (fun q _ w => str q = w) c cmd) :
    ∀ x ∈ (runcmd luck str c [] shell.fds).procs, (∀ fd, 3 ≤ fd → x.2 fd = none) ∧
      ∀ fd q, (x.2 fd = some (.writeEnd q) → q ++ [false] <+: x.1) ∧
        (x.2 fd = some (.readEnd q) → q ++ [true] <+: x.1) := by
  intro x hx
  rw [runcmd_meaning h] at hx
  have hown := own_meaning cmd [] shell x hx
  refine ⟨hown.few, fun fd q => ⟨fun hq => ?_, fun hq => ?_⟩⟩
  · exact (hown.ends fd _ hq).resolve_left (by simp [shell])
  · exact (hown.ends fd _ hq).resolve_left (by simp [shell])

theorem pipe_ends_two : (runcmd ⟨fun _ => true, fun _ => true, fun _ _ => true⟩
    (fun q => [97 + q]) (.PIPE (.EXEC [(0, 1)]) (.EXEC [(1, 2)])) [] shell.fds).procs.Forall fun x =>
      (∀ fd, 3 ≤ fd → x.2 fd = none) ∧ ∀ fd q, (x.2 fd = some (.writeEnd q) → q ++ [false] <+: x.1) ∧
        (x.2 fd = some (.readEnd q) → q ++ [true] <+: x.1) := by
  have hone : ∀ q, Shape (fun q _ w => [97 + q] = w) (.EXEC [(q, q + 1)]) (.exec [[97 + q]]) :=
    fun q => .exec (.cons rfl .nil)
  exact List.forall_iff_forall_mem.2 (pipe_ends _ ((hone 0).pipe (hone 1)))

end Ends

/-- The command `a | b`. -/
theorem sh_meaning_pipe : ∃ c mem, parsecmd [40, 97, 41, 124, 40, 98, 41] = .ok (c, mem) ∧
    runcmd ⟨fun _ => true, fun _ => true, fun _ _ => true⟩ (text mem 7) c [] shell.fds =
      .pipe [] (.exec [false] [[97]] ({ shell with stdout := .writeEnd [] } : Streams).fds)
        (.exec [true] [[98]] ({ shell with stdin := .readEnd [] } : Streams).fds) shell.fds := by
  have hword : ∀ b : ℕ, isBreak b = false → WordOk [b] := fun b hb =>
    ⟨List.cons_ne_nil b [], List.forall_mem_singleton.mpr hb⟩
  have hok : (Tree.pipe (.exec [[97]]) (.exec [[98]])).Ok :=
    ⟨⟨by decide, List.forall_mem_singleton.mpr (hword 97 rfl)⟩,
      by decide, List.forall_mem_singleton.mpr (hword 98 rfl)⟩
  obtain ⟨hprint, hmeaning⟩ := sh_meaning _ hok ⟨fun _ => true, fun _ => true, fun _ _ => true⟩ shell
  exact hmeaning _ hprint

end Sh

end OsPlayground
