import OsPlayground.Memo.Capture
import OsPlayground.Scsh.Control

/-!
# Nested command substitution

An argument of an application that is an application itself is evaluated by a child with the memo as
its fd 1, and read back with `getmemo`. There is one memo, and after each such argument fd 1 is what
`open("console")` finds.

* `runApply`, `arguments`: the case `APPLY` of `runexp` for external commands, on the memo of
  `Memo.Capture`.
* `value`, `execs`: innermost first.
* `got`, `gotExecs`: what the code gets, where nothing is left open.
* **`runApply_iff`**: when the two agree.
-/

namespace OsPlayground

open Lib

namespace Scsh

/-- What fd 1 can be. -/
inductive Out
  | console
  | pipe
  | memo
  deriving DecidableEq

/-- A tree of applications. -/
inductive App
  | atom (s : List ℕ)
  | apply (l : List App)

/-- The calls of `exec`, each with its fd 1, which is `none` where `open("console")` did not find the
console. -/
abbrev ExecLog : Type := List (List (List ℕ) × Option Out)

/-- What is left open of an application: the rest of one that has `MAXARGS` elements or more, and writes
outside `argv`, or whose head turns out to be a builtin or a stored function. -/
abbrev Other : Type := List App → Option Out → Memo → Memo × ExecLog

/-- The external commands and the state of the shell. -/
structure External where
  /-- What a command writes to fd 1, one list of bytes for each `write`. -/
  writes : List (List ℕ) → List (List ℕ)
  /-- What `exec` is passed when an argument does not fit its row of `xargv`. -/
  garble : List (List ℕ) → List (List ℕ)
  /-- The names of the stored functions. -/
  stored : List (List ℕ)
  /-- Whether an entry of `sh->funcs` is unused. Its name is empty, and it has no body. -/
  unused : Bool
  /-- Whether `open("console")` finds the console: the path is relative to the current directory. -/
  console : Bool

namespace External

variable (x : External)

/-- The output of a command. -/
def out (argv : List (List ℕ)) : List ℕ := (x.writes argv).flatten

/-- The arguments after they have been copied to `xargv`. -/
def stage (argv : List (List ℕ)) : List (List ℕ) :=
  if ∀ s ∈ argv, s.length < MAXARGL then argv else x.garble argv

/-- What `open("console")` gives for fd 1. -/
def opened : Option Out := if x.console then some .console else none

/-- The name is that of a builtin or of a stored function. -/
def Reserved (name : List ℕ) : Prop := name ∈ builtins ∨ name ∈ x.stored

instance (name : List ℕ) : Decidable (x.Reserved name) := inferInstanceAs (Decidable (_ ∨ _))

/-- The name is that of an unused entry of `sh->funcs`, so nothing is executed. -/
def Vacant (name : List ℕ) : Prop := name = [] ∧ x.unused = true

instance (name : List ℕ) : Decidable (x.Vacant name) := inferInstanceAs (Decidable (_ ∧ _))

/-- Outputs are free of NUL and shorter than a row. -/
structure Ok : Prop where
  nul : ∀ argv, ∀ w ∈ x.writes argv, 0 ∉ w
  short : ∀ argv, (x.out argv).length < MAXARGL

end External

/-! ## The code -/

/-- The writes of a command to the memo. -/
def writeMemo (ws : List (List ℕ)) (m : Memo) : Memo :=
  ws.foldl (fun m w => memowrite (fun i => w.getD i 0) w.length m) m

/-- `getmemo(xargv[i])`, as a string. -/
def getmemo (m : Memo) : List ℕ :=
  ((List.range (sysGetmemo m fun _ => 0).2).map (sysGetmemo m fun _ => 0).1).takeWhile (· ≠ 0)

/-- What the loop over the elements leaves. -/
structure Args where
  argv : List (List ℕ)
  fd : Option Out
  memo : Memo
  log : ExecLog

mutual

/-- `runexp` of an application of external commands, with its fd 1: the memo and the log. -/
def runApply (x : External) (o : Other) : App → Option Out → Memo → Memo × ExecLog
  | .atom _, _, m => (m, [])
  | .apply [], _, m => (m, [])
  | .apply (e :: l), fd, m =>
    -- `argv[lst->length] = 0`
    if MAXARGS ≤ (e :: l).length then o (e :: l) fd m
    else
      let r := arguments x o (e :: l) fd m
      if x.Reserved (r.argv.headD []) then o (e :: l) fd m
      else if x.Vacant (r.argv.headD []) then (r.memo, r.log)
      else
        let argv := x.stage r.argv
        (if r.fd = some .memo then writeMemo (x.writes argv) r.memo else r.memo,
          r.log ++ [(argv, r.fd)])

/-- The loop over the elements. -/
def arguments (x : External) (o : Other) : List App → Option Out → Memo → Args
  | [], fd, m => ⟨[], fd, m, []⟩
  | .atom s :: l, fd, m =>
    let r := arguments x o l fd m
    ⟨s :: r.argv, r.fd, r.memo, r.log⟩
  | .apply l' :: l, _, m =>
    -- `close(1); memo();`, the child, `close(1); open("console");`
    let c := runApply x o (.apply l') (some .memo) (sysMemo m.byte)
    let r := arguments x o l x.opened c.1
    ⟨getmemo c.1 :: r.argv, r.fd, r.memo, c.2 ++ r.log⟩

end

/-! ## What substitution means -/

mutual

/-- The string of an argument. -/
def value (x : External) : App → List ℕ
  | .atom s => s
  | .apply l => x.out (values x l)

/-- The strings of the arguments. -/
def values (x : External) : List App → List (List ℕ)
  | [] => []
  | e :: l => value x e :: values x l

end

mutual

/-- The arguments of each `exec`, innermost first. -/
def execs (x : External) : App → List (List (List ℕ))
  | .atom _ => []
  | .apply l => execsOf x l ++ [values x l]

/-- One element after the other. -/
def execsOf (x : External) : List App → List (List (List ℕ))
  | [] => []
  | e :: l => execs x e ++ execsOf x l

end

/-- The output of the last application among the elements. -/
def lastValue (x : External) : List App → Option (List ℕ)
  | [] => none
  | .atom _ :: l => lastValue x l
  | .apply l' :: l => some ((lastValue x l).getD (value x (.apply l')))

mutual

/-- An application has elements, fewer than `MAXARGS`, and atoms fit their rows. -/
def App.Fits : App → Prop
  | .atom s => s.length < MAXARGL
  | .apply l => (l ≠ [] ∧ l.length < MAXARGS) ∧ FitsAll l

/-- The same of every element. -/
def FitsAll : List App → Prop
  | [] => True
  | e :: l => e.Fits ∧ FitsAll l

end

mutual

/-- No name is that of a builtin or of a stored function. -/
def Commands (x : External) : App → Prop
  | .atom _ => True
  | .apply l => CommandsOf x l ∧ ¬ x.Reserved ((values x l).headD [])

/-- The same of every element. -/
def CommandsOf (x : External) : List App → Prop
  | [] => True
  | e :: l => Commands x e ∧ CommandsOf x l

end

mutual

/-- A nested application is executed, and with applications among its elements it puts out what the last
of them puts out. -/
def Nested (x : External) : App → Prop
  | .atom _ => True
  | .apply l => NestedOf x l ∧ ¬ x.Vacant ((values x l).headD []) ∧
    ∀ s, lastValue x l = some s → s = x.out (values x l)

/-- The same of every element. -/
def NestedOf (x : External) : List App → Prop
  | [] => True
  | e :: l => Nested x e ∧ NestedOf x l

end

/-! ## What the code gets

Where it comes upon the name of a builtin or of a stored function, as if nothing was done.
-/

mutual

/-- The string that the code gets for an argument. -/
def got (x : External) : App → List ℕ
  | .atom s => s
  | .apply l =>
    if x.Reserved ((gots x l).headD []) then []
    else (lastGot x l).getD (if x.Vacant ((gots x l).headD []) then [] else x.out (gots x l))

/-- The strings that the code gets for the arguments. -/
def gots (x : External) : List App → List (List ℕ)
  | [] => []
  | e :: l => got x e :: gots x l

/-- What is left in the memo after the elements. -/
def lastGot (x : External) : List App → Option (List ℕ)
  | [] => none
  | .atom _ :: l => lastGot x l
  | .apply l' :: l => some ((lastGot x l).getD (got x (.apply l')))

end

mutual

/-- The arguments of each `exec` that the code makes, innermost first. -/
def gotExecs (x : External) : App → List (List (List ℕ))
  | .atom _ => []
  | .apply l =>
    if x.Reserved ((gots x l).headD []) then []
    else gotExecsOf x l ++ if x.Vacant ((gots x l).headD []) then [] else [gots x l]

/-- One element after the other. -/
def gotExecsOf (x : External) : List App → List (List (List ℕ))
  | [] => []
  | e :: l => gotExecs x e ++ gotExecsOf x l

end

mutual

/-- The code comes upon no name of a builtin or of a stored function. -/
def Unreserved (x : External) : App → Prop
  | .atom _ => True
  | .apply l => UnreservedOf x l ∧ ¬ x.Reserved ((gots x l).headD [])

/-- The same of every element. -/
def UnreservedOf (x : External) : List App → Prop
  | [] => True
  | e :: l => Unreserved x e ∧ UnreservedOf x l

end

/-- Nothing is done. -/
def nothing : Other := fun _ _ m => (m, [])

/-! ## The memo -/

theorem run_memoStep (ws : List (List ℕ)) : ∀ m : Memo,
    run memoStep ws m = some (writeMemo ws m) := by
  induction ws with
  | nil => exact fun _ => rfl
  | cons w ws ih => exact fun m => ih _

theorem captured_writeMemo {ws : List (List ℕ)} (hw : ∀ w ∈ ws, 0 ∉ w) {m : Memo}
    (hm : m.Captured []) : (writeMemo ws m).Captured ws.flatten :=
  captured hm hw (run_memoStep ws m)

theorem captured_sysMemo (byte : ℕ → ℕ) : (sysMemo byte).Captured [] :=
  ⟨rfl, fun _ h => absurd h (Nat.not_lt_zero _)⟩

theorem getmemo_captured {m : Memo} {s : List ℕ} (hm : m.Captured s) (hs : 0 ∉ s) :
    getmemo m = s := by
  rw [getmemo, sysGetmemo_captured hm hs]
  have hmap : (List.range s.length).map (fun i => (s ++ [0]).getD i 0) = s := by
    refine List.ext_getElem (by simp) fun i h₁ h₂ => ?_
    simp [List.getElem?_append_left h₂, List.getElem?_eq_getElem h₂]
  rw [hmap]
  exact List.takeWhile_eq_self_iff.mpr fun c hc => by
    simpa using ne_of_mem_of_not_mem hc hs

/-! ## What the code does -/

section Code

variable {x : External} (hx : x.Ok)
include hx

theorem out_nul (argv : List (List ℕ)) : 0 ∉ x.out argv := fun h => by
  obtain ⟨w, hw, h0⟩ := List.mem_flatten.mp h
  exact hx.nul argv w hw h0

mutual

theorem got_short : ∀ e : App, e.Fits → (got x e).length < MAXARGL
  | .atom _, h => h
  | .apply l, h => by
    rw [got]
    cases hl : lastGot x l with
    | none =>
      rw [Option.getD_none]
      split_ifs
      · decide
      · decide
      · exact hx.short _
    | some s =>
      rw [Option.getD_some]
      split_ifs
      · decide
      · exact (lastGot_spec l h.2 s hl).1

theorem lastGot_spec : ∀ l : List App, FitsAll l → ∀ s, lastGot x l = some s →
    s.length < MAXARGL ∧ 0 ∉ s
  | [], _, _, hs => by cases hs
  | .atom _ :: l, h, s, hs => lastGot_spec l h.2 s hs
  | .apply l' :: l, h, s, hs => by
    obtain rfl := Option.some.inj hs
    cases hl : lastGot x l with
    | some s => exact lastGot_spec l h.2 s hl
    | none =>
      refine ⟨got_short (.apply l') h.1, ?_⟩
      rw [Option.getD_none, got]
      split_ifs with hres hvac
      · exact List.not_mem_nil
      · cases hl' : lastGot x l' with
        | none => exact List.not_mem_nil
        | some s => exact (lastGot_spec l' h.1.2 s hl').2
      · cases hl' : lastGot x l' with
        | none => exact out_nul hx _
        | some s => exact (lastGot_spec l' h.1.2 s hl').2

end

theorem got_nul {l : List App} (h : (App.apply l).Fits) : 0 ∉ got x (.apply l) :=
  (lastGot_spec hx [.apply l] ⟨h, trivial⟩ _ rfl).2

theorem gots_short : ∀ l : List App, FitsAll l → ∀ s ∈ gots x l, s.length < MAXARGL := by
  intro l
  induction l with
  | nil => exact fun _ s hs => absurd hs List.not_mem_nil
  | cons e l ih =>
    intro h s hs
    rcases List.mem_cons.mp hs with rfl | hs
    · exact got_short hx e h.1
    · exact ih h.2 s hs

/-- What the loop over the elements leaves, said of `runApply`'s values. -/
structure ArgsSpec (x : External) (l : List App) (fd : Option Out) (m : Memo) (r : Args) : Prop where
  argv : r.argv = gots x l
  fd : r.fd = if (lastGot x l).isSome then x.opened else fd
  memo : lastGot x l = none → r.memo = m
  last : ∀ s, lastGot x l = some s → r.memo.Captured s
  log : r.log.map Prod.fst = gotExecsOf x l

theorem runApply_eq {o : Other} {l : List App} {fd : Option Out} {m : Memo}
    (h : (App.apply l).Fits) (ho : o = nothing ∨ ¬ x.Reserved ((gots x l).headD []))
    (hr : ArgsSpec x l fd m (arguments x o l fd m)) :
    runApply x o (.apply l) fd m =
      if x.Reserved ((gots x l).headD []) then (m, [])
      else if x.Vacant ((gots x l).headD []) then
        ((arguments x o l fd m).memo, (arguments x o l fd m).log)
      else (if (arguments x o l fd m).fd = some .memo then
          writeMemo (x.writes (gots x l)) (arguments x o l fd m).memo else (arguments x o l fd m).memo,
        (arguments x o l fd m).log ++ [(gots x l, (arguments x o l fd m).fd)]) := by
  obtain ⟨e, t, rfl⟩ := List.exists_cons_of_ne_nil h.1.1
  have hstage : x.stage (gots x (e :: t)) = gots x (e :: t) := if_pos (gots_short hx _ h.2)
  rw [runApply, if_neg (Nat.not_le.2 h.1.2)]
  dsimp only
  rw [hr.argv, hstage]
  by_cases hres : x.Reserved ((gots x (e :: t)).headD [])
  · rw [if_pos hres, if_pos hres, ho.resolve_right fun h => h hres]
    rfl
  · rw [if_neg hres, if_neg hres]

mutual

/-- A child with a fresh memo as its fd 1 leaves there what the code gets. -/
theorem runApply_child {o : Other} : ∀ l : List App, (App.apply l).Fits →
    o = nothing ∨ Unreserved x (.apply l) → ∀ m : Memo, m.Captured [] →
    (runApply x o (.apply l) (some .memo) m).1.Captured (got x (.apply l)) ∧
      (runApply x o (.apply l) (some .memo) m).2.map Prod.fst = gotExecs x (.apply l)
  | l, h, ho, m, hm => by
    have hr := arguments_spec l h.2 (ho.imp_right And.left) (some .memo) m
    rw [runApply_eq hx h (ho.imp_right And.right) hr, got, gotExecs]
    by_cases hres : x.Reserved ((gots x l).headD [])
    · rw [if_pos hres, if_pos hres, if_pos hres]
      exact ⟨hm, rfl⟩
    rw [if_neg hres, if_neg hres, if_neg hres]
    have hlast : ∀ s, lastGot x l = some s → (arguments x o l (some .memo) m).fd ≠ some .memo := by
      intro s hs
      rw [hr.fd, hs, External.opened]
      cases x.console <;> simp
    by_cases hvac : x.Vacant ((gots x l).headD [])
    · rw [if_pos hvac, if_pos hvac, if_pos hvac, List.append_nil]
      refine ⟨?_, hr.log⟩
      cases hl : lastGot x l with
      | none =>
        rw [hr.memo hl]
        exact hm
      | some s => exact hr.last s hl
    · rw [if_neg hvac, if_neg hvac, if_neg hvac, List.map_append, hr.log]
      refine ⟨?_, rfl⟩
      cases hl : lastGot x l with
      | none =>
        have hfd : (arguments x o l (some .memo) m).fd = some .memo := by rw [hr.fd, hl]; rfl
        rw [if_pos hfd, hr.memo hl]
        simpa [External.out] using captured_writeMemo (hx.nul _) hm
      | some s =>
        rw [if_neg (hlast s hl)]
        exact hr.last s hl

theorem arguments_spec {o : Other} : ∀ l : List App, FitsAll l →
    o = nothing ∨ UnreservedOf x l → ∀ (fd : Option Out) (m : Memo),
    ArgsSpec x l fd m (arguments x o l fd m)
  | [], _, _, fd, m => ⟨rfl, rfl, fun _ => rfl, fun s hs => (by cases hs), rfl⟩
  | .atom s :: l, h, ho, fd, m => by
    obtain ⟨h₁, h₂, h₃, h₄, h₅⟩ := arguments_spec l h.2 (ho.imp_right And.right) fd m
    exact ⟨congrArg (s :: ·) h₁, h₂, h₃, h₄, h₅⟩
  | .apply l' :: l, h, ho, fd, m => by
    obtain ⟨hmem, hlog⟩ :=
      runApply_child l' h.1 (ho.imp_right And.left) (sysMemo m.byte) (captured_sysMemo _)
    obtain ⟨h₁, h₂, h₃, h₄, h₅⟩ := arguments_spec l h.2 (ho.imp_right And.right) x.opened
      (runApply x o (.apply l') (some .memo) (sysMemo m.byte)).1
    have hget := getmemo_captured hmem (got_nul hx h.1)
    refine ⟨?_, ?_, fun hs => (by cases hs), fun s hs => ?_, ?_⟩
    · rw [arguments, gots, hget, h₁]
    · rw [arguments, h₂, lastGot]
      simp
    · obtain rfl := Option.some.inj hs
      rw [arguments]
      cases hl : lastGot x l with
      | none =>
        dsimp only
        rw [Option.getD_none, h₃ hl]
        exact hmem
      | some s => exact h₄ s hl
    · rw [arguments, gotExecsOf, ← hlog, ← h₅, List.map_append]

end

end Code

/-! ## When it is what substitution means -/

section Agree

variable {x : External}

mutual

theorem length_gotExecs : ∀ e : App, (gotExecs x e).length ≤ (execs x e).length
  | .atom _ => le_rfl
  | .apply l => by
    have hl := length_gotExecsOf l
    rw [gotExecs, execs, List.length_append, List.length_singleton]
    split_ifs <;> simp <;> omega

theorem length_gotExecsOf : ∀ l : List App, (gotExecsOf x l).length ≤ (execsOf x l).length
  | [] => le_rfl
  | e :: l => by
    rw [gotExecsOf, execsOf, List.length_append, List.length_append]
    exact Nat.add_le_add (length_gotExecs e) (length_gotExecsOf l)

end

theorem lastGot_eq : ∀ l : List App, gots x l = values x l → lastGot x l = lastValue x l
  | [], _ => rfl
  | .atom _ :: l, h => lastGot_eq l (List.cons.inj h).2
  | .apply l' :: l, h => by
    obtain ⟨he, hl⟩ := List.cons.inj h
    rw [lastGot, lastValue, lastGot_eq l hl, he]

/-- The calls of `exec` for an application, in terms of its elements. -/
theorem gotExecs_apply_iff {l : List App} (hc : ¬ x.Reserved ((values x l).headD [])) :
    gotExecs x (.apply l) = execs x (.apply l) ↔
      (gotExecsOf x l = execsOf x l ∧ gots x l = values x l) ∧ ¬ x.Vacant ((values x l).headD []) := by
  have hle := length_gotExecsOf (x := x) l
  rw [gotExecs, execs]
  constructor
  · intro h
    have hlen := congrArg List.length h
    rw [List.length_append, List.length_singleton] at hlen
    by_cases hres : x.Reserved ((gots x l).headD [])
    · rw [if_pos hres] at hlen
      cases hlen
    rw [if_neg hres] at h hlen
    by_cases hvac : x.Vacant ((gots x l).headD [])
    · rw [if_pos hvac, List.append_nil] at hlen
      omega
    rw [if_neg hvac] at h hlen
    rw [List.length_append, List.length_singleton] at hlen
    obtain ⟨h₁, h₂⟩ := List.append_inj h (by omega)
    have hv := List.singleton_inj.mp h₂
    exact ⟨⟨h₁, hv⟩, hv ▸ hvac⟩
  · rintro ⟨⟨h₁, h₂⟩, hvac⟩
    rw [h₁, h₂, if_neg hc, if_neg hvac]

mutual

/-- **The code gets the right string, by the right calls, for the applications that are what their
last application is.** -/
theorem got_iff : ∀ e : App, Commands x e →
    (gotExecs x e = execs x e ∧ got x e = value x e ↔ Nested x e)
  | .atom _, _ => ⟨fun _ => trivial, fun _ => ⟨rfl, rfl⟩⟩
  | .apply l, hc => by
    rw [gotExecs_apply_iff hc.2, gots_iff l hc.1, Nested, and_assoc]
    refine and_congr_right fun hl => and_congr_right fun hvac => ?_
    have hv := ((gots_iff l hc.1).mpr hl).2
    rw [got, value, lastGot_eq l hv, hv, if_neg hc.2, if_neg hvac]
    cases lastValue x l with
    | none => simp
    | some s => simp

theorem gots_iff : ∀ l : List App, CommandsOf x l →
    (gotExecsOf x l = execsOf x l ∧ gots x l = values x l ↔ NestedOf x l)
  | [], _ => ⟨fun _ => trivial, fun _ => ⟨rfl, rfl⟩⟩
  | e :: l, hc => by
    rw [NestedOf, ← got_iff e hc.1, ← gots_iff l hc.2, gotExecsOf, execsOf, gots, values]
    constructor
    · rintro ⟨h₁, h₂⟩
      have hlen := congrArg List.length h₁
      rw [List.length_append, List.length_append] at hlen
      have hle₁ := length_gotExecs (x := x) e
      have hle₂ := length_gotExecsOf (x := x) l
      obtain ⟨ha, hb⟩ := List.append_inj h₁ (by omega)
      obtain ⟨hv, hd⟩ := List.cons.inj h₂
      exact ⟨⟨ha, hv⟩, hb, hd⟩
    · rintro ⟨⟨ha, hv⟩, hb, hd⟩
      rw [ha, hb, hv, hd]
      exact ⟨rfl, rfl⟩

end

mutual

theorem unreserved_of_nested : ∀ e : App, Commands x e → Nested x e → Unreserved x e
  | .atom _, _, _ => trivial
  | .apply l, hc, h => by
    refine ⟨unreservedOf_of_nested l hc.1 h.1, ?_⟩
    rw [((gots_iff l hc.1).mpr h.1).2]
    exact hc.2

theorem unreservedOf_of_nested : ∀ l : List App, CommandsOf x l → NestedOf x l → UnreservedOf x l
  | [], _, _ => trivial
  | e :: l, hc, h => ⟨unreserved_of_nested e hc.1 h.1, unreservedOf_of_nested l hc.2 h.2⟩

end

theorem lastGot_isNone : ∀ l : List App, lastGot x l = none ↔ lastValue x l = none
  | [] => Iff.rfl
  | .atom _ :: l => lastGot_isNone l
  | .apply _ :: _ => iff_of_false (by simp [lastGot]) (by simp [lastValue])

end Agree

/-- Every `exec` is passed the arguments of innermost-first evaluation, and the outermost command has
the fd 1 with which `runexp` was called. -/
structure Substitutes (x : External) (o : Other) (l : List App) (fd : Out) (m : Memo) : Prop where
  execs : (runApply x o (.apply l) (some fd) m).2.map Prod.fst = execs x (.apply l)
  outermost : (runApply x o (.apply l) (some fd) m).2.getLast?.map Prod.snd = some (some fd)

section Whole

variable {x : External} (hx : x.Ok) {l : List App} {fd : Out} {m : Memo}
include hx

theorem runApply_log {o : Other} (h : (App.apply l).Fits)
    (ho : o = nothing ∨ Unreserved x (.apply l)) :
    (runApply x o (.apply l) (some fd) m).2.map Prod.fst = gotExecs x (.apply l) := by
  have hr := arguments_spec hx l h.2 (ho.imp_right And.left) (some fd) m
  rw [runApply_eq hx h (ho.imp_right And.right) hr, gotExecs]
  split_ifs
  · rfl
  · rw [List.append_nil]
    exact hr.log
  · rw [List.map_append, hr.log]
    rfl
  · rw [List.map_append, hr.log]
    rfl

theorem runApply_fd {o : Other} (h : (App.apply l).Fits)
    (ho : o = nothing ∨ Unreserved x (.apply l)) (hres : ¬ x.Reserved ((gots x l).headD []))
    (hvac : ¬ x.Vacant ((gots x l).headD [])) :
    (runApply x o (.apply l) (some fd) m).2.getLast?.map Prod.snd = some (some fd) ↔
      lastValue x l = none ∨ fd = .console ∧ x.console = true := by
  have hr := arguments_spec hx l h.2 (ho.imp_right And.left) (some fd) m
  rw [runApply_eq hx h (ho.imp_right And.right) hr, if_neg hres, if_neg hvac, List.getLast?_append,
    ← lastGot_isNone, hr.fd, External.opened]
  cases lastGot x l with
  | none => simp
  | some s => cases hcon : x.console <;> simp [eq_comm]

end Whole

/-- **When nested substitution works**, whatever is done where it is left open: nested applications are
executed and put out what their last application puts out, the outermost one is executed, and one with
applications among its elements is called with the console, in the directory of the console. -/
theorem runApply_iff (x : External) (hx : x.Ok) (l : List App) (fd : Out) (m : Memo)
    (h : (App.apply l).Fits) (hc : Commands x (.apply l)) :
    (∀ o, Substitutes x o l fd m) ↔ NestedOf x l ∧ ¬ x.Vacant ((values x l).headD []) ∧
      (lastValue x l = none ∨ fd = .console ∧ x.console = true) := by
  have hexecs := gotExecs_apply_iff (x := x) hc.2
  rw [gots_iff l hc.1] at hexecs
  constructor
  · intro hs
    have hrun := (hs nothing).execs
    rw [runApply_log hx h (.inl rfl), hexecs] at hrun
    obtain ⟨hn, hvac⟩ := hrun
    have hv := ((gots_iff l hc.1).mpr hn).2
    refine ⟨hn, hvac, ?_⟩
    exact (runApply_fd hx h (.inl rfl) (hv ▸ hc.2) (hv ▸ hvac)).mp (hs nothing).outermost
  · rintro ⟨hn, hvac, hfd⟩ o
    have hv := ((gots_iff l hc.1).mpr hn).2
    have ho : Unreserved x (.apply l) := ⟨unreservedOf_of_nested l hc.1 hn, hv ▸ hc.2⟩
    refine ⟨?_, (runApply_fd hx h (.inr ho) ho.2 (hv ▸ hvac)).mpr hfd⟩
    rw [runApply_log hx h (.inr ho), hexecs]
    exact ⟨hn, hvac⟩

/-- Every command puts out its name; nothing is stored, and the console is there. -/
def echoName : External :=
  ⟨fun argv => [((argv.headD []).filter (· ≠ 0)).take 9], id, [], true, true⟩

theorem echoName_ok : echoName.Ok := by
  refine ⟨fun argv w hw => ?_, fun argv => ?_⟩
  · rw [List.mem_singleton.mp hw]
    exact fun h0 => by simpa using List.mem_of_mem_take h0
  · simp only [External.out, echoName, List.flatten_singleton, List.length_take]
    exact (Nat.min_le_left _ _).trans_lt (by decide)

/-- `(a (b) x (b (b)))` on the console: the argument `(b (b))` puts out what `(b)` does. -/
theorem runApply_iff_once : Nested echoName (.apply [.atom (str "b"), .apply [.atom (str "b")]]) ∧
    ∀ o, Substitutes echoName o [.atom (str "a"), .apply [.atom (str "b")], .atom (str "x"),
      .apply [.atom (str "b"), .apply [.atom (str "b")]]] .console (sysMemo fun _ => 0) := by
  have hb : (App.apply [.atom (str "b")]).Fits :=
    ⟨by decide, show (str "b").length < 10 by decide, trivial⟩
  have hc : Commands echoName (.apply [.atom (str "b")]) := ⟨⟨trivial, trivial⟩, by decide⟩
  have hn : Nested echoName (.apply [.atom (str "b")]) :=
    ⟨⟨trivial, trivial⟩, by decide, by simp [lastValue]⟩
  have hbb : Nested echoName (.apply [.atom (str "b"), .apply [.atom (str "b")]]) :=
    ⟨⟨trivial, hn, trivial⟩, by decide, fun s hs => (Option.some.inj hs).symm⟩
  refine ⟨hbb, (runApply_iff echoName echoName_ok [.atom (str "a"), .apply [.atom (str "b")],
    .atom (str "x"), .apply [.atom (str "b"), .apply [.atom (str "b")]]] .console _
    ⟨by decide, show (str "a").length < 10 by decide, hb, show (str "x").length < 10 by decide,
      ⟨by decide, show (str "b").length < 10 by decide, hb, trivial⟩, trivial⟩
    ⟨⟨trivial, hc, trivial, ⟨⟨trivial, hc, trivial⟩, by decide⟩, trivial⟩, by decide⟩).mpr
    ⟨⟨trivial, hn, trivial, hbb, trivial⟩, by decide, .inr ⟨rfl, rfl⟩⟩⟩

/-- In `(a (b (c)))` the command `a` gets the output of `c`. -/
theorem nested_loses :
    let l := [App.atom (str "a"), .apply [.atom (str "b"), .apply [.atom (str "c")]]]
    (∀ o, (runApply echoName o (.apply l) (some .console) (sysMemo fun _ => 0)).2.map Prod.fst =
        [[str "c"], [str "b", str "c"], [str "a", str "c"]]) ∧
      execs echoName (.apply l) = [[str "c"], [str "b", str "c"], [str "a", str "b"]] ∧
      ∀ o, ¬ Substitutes echoName o l .console (sysMemo fun _ => 0) := by
  intro l
  have hgot : ∀ o, (runApply echoName o (.apply l) (some .console) (sysMemo fun _ => 0)).2.map
      Prod.fst = [[str "c"], [str "b", str "c"], [str "a", str "c"]] := by
    intro o
    have hb : (App.apply [.atom (str "c")]).Fits :=
      ⟨by decide, show (str "c").length < 10 by decide, trivial⟩
    have hbc : (App.apply [.atom (str "b"), .apply [.atom (str "c")]]).Fits :=
      ⟨by decide, show (str "b").length < 10 by decide, hb, trivial⟩
    have hc : Unreserved echoName (.apply [.atom (str "c")]) :=
      ⟨⟨trivial, trivial⟩, by decide +kernel⟩
    have hun : Unreserved echoName (.apply l) :=
      ⟨⟨trivial, ⟨⟨trivial, hc, trivial⟩, by decide +kernel⟩, trivial⟩, by decide +kernel⟩
    have hfits : (App.apply l).Fits :=
      ⟨by decide, show (str "a").length < 10 by decide, hbc, trivial⟩
    rw [runApply_log echoName_ok hfits (.inr hun)]
    decide +kernel
  have hexecs : execs echoName (.apply l) = [[str "c"], [str "b", str "c"], [str "a", str "b"]] := by
    decide +kernel
  exact ⟨hgot, hexecs, fun o h =>
    absurd ((hgot o).symm.trans (h.execs.trans hexecs)) (by decide +kernel)⟩

end Scsh

end OsPlayground
