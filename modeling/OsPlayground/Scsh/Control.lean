import Mathlib.Tactic.NormNum
import OsPlayground.Scsh.Argv

/-!
# The control constructs of `runexp`

Which commands `runexp` executes, and in which order, for expressions built from lists, `if`, `pend`
and `repeat`. The atoms of a command go through the rows of `xargv` (`applyAtoms`).

* `runexp`: as the code does it. It ends in `exit()`, so a list is over after its first element.
* `Ctl`, `Ctl.commands`: the constructs and what they should run.
* `Ctl.Ok`, **`runexp_iff`**: when the two agree.
-/

namespace OsPlayground

namespace Scsh

/-- `2^32` -/
abbrev INTS : ℕ := 4294967296

/-- `fromint`. -/
def fromint (v : List ℕ) : ℤ :=
  v.foldl (fun s (c : ℕ) => Int.bmod (s * 10 + (c - 48)) INTS) 0

/-- The arguments of the calls of `exec`, in their order. -/
abbrev Trace : Type := List (List (List ℕ))

/-- What is left open here. -/
structure Rest where
  /-- The `symbol` of a list taken for an atom: what stands at the address `length`. -/
  symbol : ℕ → List ℕ
  /-- The number in a list taken for an atom. -/
  number : List Exp → ℤ
  /-- `con`, `clk`, `pipe` and arguments that are no atoms, from what the elements run. -/
  other : List Exp → List Trace → Trace
  /-- What `argv` and `xargv` hold before the case `APPLY` writes to them. -/
  stack : List Exp → Arrays
  /-- What is executed after a write outside `argv` and `xargv`. -/
  outside : List (List ℕ) → Trace

/-- `((struct atom *)exp)->symbol`. -/
def Rest.symbolOf (g : Rest) : Exp → List ℕ
  | .atom s => s
  | .list _ l => g.symbol l.length

/-- `fromint` of an operand. -/
def Rest.numberOf (g : Rest) : Exp → ℤ
  | .atom s => fromint s
  | .list _ l => g.number l

/-- The string of an atom. -/
def Exp.symbol? : Exp → Option (List ℕ)
  | .atom s => some s
  | .list _ _ => none

/-- What an application of atoms executes. An unused entry of `sh->funcs` has the empty name and no
body, so its child exits at once. -/
def command (g : Rest) (l : List Exp) (argv : List (List ℕ)) : Trace :=
  match applyAtoms [[]] argv (g.stack l) with
  | .other => []
  | .outside => g.outside argv
  | .exec f => [f.passed MAXARGS 0]

/-- The case `APPLY` of `runexp`, from what the elements run. -/
def applyExp (g : Rest) (l : List Exp) (t : List Trace) : Trace :=
  match l with
  | [] => []
  | e :: _ =>
    let operand := fun i => l.getD i (.atom [])
    if e.symbol? = some (str "defun") then []
    else if e.symbol? = some (str "if") then
      if g.symbolOf (operand 1) = str ":true" then t.getD 2 [] else t.getD 3 []
    else if e.symbol? = some (str "equal") ∨ e.symbol? = some (str "minus") then []
    else if e.symbol? = some (str "repeat") then
      (List.replicate (g.numberOf (operand 1)).toNat (t.getD 2 [])).flatten
    else if e.symbol? = some (str "pend") then t.getD 1 [] ++ t.getD 2 []
    else if e.symbol? = some (str "con") ∨ e.symbol? = some (str "clk") ∨
        e.symbol? = some (str "pipe") then g.other l t
    else match l.mapM Exp.symbol? with
      | some argv => command g l argv
      | none => g.other l t

mutual

/-- `runexp`, with no stored function: the commands that are executed until `exit()`. -/
def runexp (g : Rest) : Exp → Trace
  | .atom _ => []
  -- the call for the first element does not return
  | .list .LIST l => (runexps g l).headD []
  | .list .APPLY l => applyExp g l (runexps g l)

/-- Each expression in a shell of its own. -/
def runexps (g : Rest) : List Exp → List Trace
  | [] => []
  | e :: l => runexp g e :: runexps g l

end

/-! ## What the constructs mean -/

/-- A control expression. The condition of `if` is an atom or an application. -/
inductive Ctl
  | command (argv : List (List ℕ))
  | list (l : List Ctl)
  | pend (a b : Ctl)
  | loop (count : List (Fin 10)) (a : Ctl)
  | ifAtom (c : List ℕ) (a b : Ctl)
  | ifApply (c : List (List ℕ)) (a b : Ctl)

/-- The text of a decimal number. -/
def digits (count : List (Fin 10)) : List ℕ := count.map fun d => 48 + d.val

/-- Its value. -/
def decimal (count : List (Fin 10)) : ℕ := count.foldl (fun n d => n * 10 + d.val) 0

/-- The application of `argv`. -/
def applyOf (argv : List (List ℕ)) : Exp := .list .APPLY (argv.map .atom)

mutual

/-- The expression that the parser returns. -/
def Ctl.toExp : Ctl → Exp
  | .command argv => applyOf argv
  | .list l => .list .LIST (toExps l)
  | .pend a b => .list .APPLY [.atom (str "pend"), a.toExp, b.toExp]
  | .loop count a =>
    .list .APPLY [.atom (str "repeat"), .atom (digits count), a.toExp]
  | .ifAtom c a b => .list .APPLY [.atom (str "if"), .atom c, a.toExp, b.toExp]
  | .ifApply c a b => .list .APPLY [.atom (str "if"), applyOf c, a.toExp, b.toExp]

/-- The same of every element. -/
def toExps : List Ctl → List Exp
  | [] => []
  | c :: l => c.toExp :: toExps l

end

/-- The commands that the evaluation of a condition executes. -/
def conditionCommands (c : List (List ℕ)) : Trace := if c.headD [] ∈ builtins then [] else [c]

mutual

/-- The commands that a control expression should execute; `eval` is what a condition evaluates
to. -/
def Ctl.commands (eval : List (List ℕ) → List ℕ) : Ctl → Trace
  | .command argv => [argv]
  | .list l => commandsOf eval l
  | .pend a b => a.commands eval ++ b.commands eval
  | .loop count a => (List.replicate (decimal count) (a.commands eval)).flatten
  | .ifAtom c a b => if c = str ":true" then a.commands eval else b.commands eval
  | .ifApply c a b => conditionCommands c ++
    if eval c = str ":true" then a.commands eval else b.commands eval

/-- The commands of one expression after the other. -/
def commandsOf (eval : List (List ℕ) → List ℕ) : List Ctl → Trace
  | [] => []
  | c :: l => c.commands eval ++ commandsOf eval l

end

mutual

/-- Every command has a name, which is none of those that `runexp` knows, and its atoms are strings. -/
def Ctl.Wf : Ctl → Prop
  | .command argv => (argv ≠ [] ∧ argv.headD [] ∉ builtins) ∧ ∀ s ∈ argv, 0 ∉ s
  | .list l => Wfs l
  | .pend a b => a.Wf ∧ b.Wf
  | .loop _ a => a.Wf
  | .ifAtom _ a b | .ifApply _ a b => a.Wf ∧ b.Wf

/-- The same of every element. -/
def Wfs : List Ctl → Prop
  | [] => True
  | c :: l => c.Wf ∧ Wfs l

end

/-- The atoms of a command reach `exec` intact: the name is not empty, there are fewer than `MAXARGS`,
each fits into `xargv` from its row on, and each is shorter than a row or goes on with the next one. -/
def Intact (argv : List (List ℕ)) : Prop :=
  argv.headD [] ≠ [] ∧ FitsArgv argv ∧ argv.IsChain Follows

/-- What `runexp` can do: the atoms of a command arrive, a list has nothing to run after its first
element, a count fits an `int` (or nothing is repeated), and a condition that is an application executes
nothing and happens to be what its length points to. -/
def Ctl.Ok (symbol : ℕ → List ℕ) (eval : List (List ℕ) → List ℕ) : Ctl → Prop
  | .command argv => Intact argv
  | .list [] => True
  | .list (a :: l) => a.Ok symbol eval ∧ commandsOf eval l = []
  | .pend a b => a.Ok symbol eval ∧ b.Ok symbol eval
  | .loop count a => decimal count = 0 ∨
    a.Ok symbol eval ∧ (decimal count < 2147483648 ∨ a.commands eval = [])
  | .ifAtom c a b => if c = str ":true" then a.Ok symbol eval else b.Ok symbol eval
  | .ifApply c a b => conditionCommands c = [] ∧
    (symbol c.length = str ":true" ↔ eval c = str ":true") ∧
    if eval c = str ":true" then a.Ok symbol eval else b.Ok symbol eval

mutual

/-- Every condition is an atom. -/
def Ctl.AtomConditions : Ctl → Prop
  | .command _ => True
  | .list l => AtomConditionss l
  | .pend a b => a.AtomConditions ∧ b.AtomConditions
  | .loop _ a => a.AtomConditions
  | .ifAtom _ a b => a.AtomConditions ∧ b.AtomConditions
  | .ifApply _ _ _ => False

/-- The same of every element. -/
def AtomConditionss : List Ctl → Prop
  | [] => True
  | c :: l => c.AtomConditions ∧ AtomConditionss l

end

/-! ## Numbers -/

theorem foldl_bmod (m : ℕ) (count : List (Fin 10)) : ∀ n : ℕ,
    (digits count).foldl (fun s (c : ℕ) => Int.bmod (s * 10 + (c - 48)) m) (Int.bmod n m) =
      Int.bmod (count.foldl (fun n d => n * 10 + d.val) n : ℕ) m := by
  induction count with
  | nil => exact fun _ => rfl
  | cons d count ih =>
    intro n
    have hstep : Int.bmod (Int.bmod n m * 10 + (((48 + d.val : ℕ) : ℤ) - 48)) m =
        Int.bmod ((n * 10 + d.val : ℕ) : ℤ) m := by
      rw [← Int.bmod_add_bmod, Int.bmod_mul_bmod, Int.bmod_add_bmod]
      congr 1
      push_cast
      omega
    rw [digits, List.map_cons, List.foldl_cons, List.foldl_cons, hstep]
    exact ih (n * 10 + d.val)

theorem fromint_digits (count : List (Fin 10)) :
    fromint (digits count) = Int.bmod (decimal count) INTS :=
  foldl_bmod INTS count 0

theorem toNat_bmod {n k : ℕ} (hk : 0 < k) : (Int.bmod n (2 * k)).toNat ≤ n ∧
    ((Int.bmod n (2 * k)).toNat = n ↔ n < k) := by
  have hle := Nat.mod_le n (2 * k)
  have hlt := Nat.mod_lt n (show 2 * k > 0 by omega)
  have heq : n < 2 * k → n % (2 * k) = n := Nat.mod_eq_of_lt
  have hcast : (n : ℤ) % ((2 * k : ℕ) : ℤ) = ((n % (2 * k) : ℕ) : ℤ) := rfl
  rw [Int.bmod_def, hcast]
  generalize n % (2 * k) = r at hle hlt heq
  split_ifs <;> omega

/-- How often `repeat` runs its operand. -/
def times (count : List (Fin 10)) : ℕ := (Int.bmod (decimal count) INTS).toNat

theorem times_le (count : List (Fin 10)) : times count ≤ decimal count :=
  (toNat_bmod (k := 2147483648) (by decide)).1

theorem times_eq_iff {count : List (Fin 10)} :
    times count = decimal count ↔ decimal count < 2147483648 :=
  (toNat_bmod (k := 2147483648) (by decide)).2

/-! ## The constructs -/

section Constructs

variable (g : Rest)

theorem mapM_symbol (argv : List (List ℕ)) : (argv.map Exp.atom).mapM Exp.symbol? = some argv := by
  induction argv with
  | nil => rfl
  | cons s argv ih => simp [List.mapM_cons, ih, Exp.symbol?]

theorem runexp_applyOf {argv : List (List ℕ)} (h : argv ≠ [] ∧ argv.headD [] ∉ builtins) :
    runexp g (applyOf argv) = command g (argv.map .atom) argv := by
  obtain ⟨hne, h⟩ := h
  obtain ⟨name, args, rfl⟩ := List.exists_cons_of_ne_nil hne
  simp only [builtins, List.map_cons, List.map_nil, List.mem_cons, List.not_mem_nil, or_false,
    not_or, List.headD_cons] at h
  have hm := mapM_symbol (name :: args)
  rw [List.map_cons] at hm
  simp [applyOf, runexp, applyExp, Exp.symbol?, h, hm]

/-- **A command is executed as it stands** if and only if its atoms arrive; else it is another one, none,
or what follows a write outside the arrays. -/
theorem runexp_command {argv : List (List ℕ)} (hw : (Ctl.command argv).Wf) :
    (Intact argv → runexp g (applyOf argv) = [argv]) ∧
      (¬ Intact argv → runexp g (applyOf argv) = g.outside argv ∨ runexp g (applyOf argv) = [] ∨
        ∃ argv' ≠ argv, runexp g (applyOf argv) = [argv']) := by
  obtain ⟨hhead, hnul⟩ := hw
  rw [runexp_applyOf g hhead, command]
  by_cases hempty : argv.headD [] = []
  · refine ⟨fun h => absurd hempty h.1, fun _ => ?_⟩
    rcases applyAtoms_names (List.mem_singleton.2 hempty) (g.stack (argv.map .atom)) with h | h
    · rw [h]
      exact .inl rfl
    · rw [h]
      exact .inr (.inl rfl)
  have hnames : argv.headD [] ∉ builtins ∧ argv.headD [] ∉ [([] : List ℕ)] :=
    ⟨hhead.2, fun h => hempty (List.mem_singleton.1 h)⟩
  by_cases hfit : FitsArgv argv
  · obtain ⟨f', hcall, hiff⟩ := applyAtoms_passed hhead.1 hnul hnames (g.stack (argv.map .atom)) hfit
    rw [hcall]
    refine ⟨fun h => congrArg (fun l => [l]) (hiff.2 h.2.2), fun h => .inr (.inr ⟨_, ?_, rfl⟩)⟩
    exact fun heq => h ⟨hempty, hfit, hiff.1 heq⟩
  · rw [(applyAtoms_spec hhead.1 hnames _).2 hfit]
    exact ⟨fun h => absurd h.2.1 hfit, fun _ => .inl rfl⟩

theorem runexp_pend (a b : Exp) :
    runexp g (.list .APPLY [.atom (str "pend"), a, b]) = runexp g a ++ runexp g b := rfl

theorem runexp_repeat (c a : Exp) : runexp g (.list .APPLY [.atom (str "repeat"), c, a]) =
    (List.replicate (g.numberOf c).toNat (runexp g a)).flatten := rfl

theorem runexp_loop (count : List (Fin 10)) (a : Exp) :
    runexp g (.list .APPLY [.atom (str "repeat"), .atom (digits count), a]) =
      (List.replicate (times count) (runexp g a)).flatten := by
  have hn : (g.numberOf (.atom (digits count))).toNat = times count :=
    congrArg Int.toNat (fromint_digits count)
  rw [runexp_repeat, hn]

theorem runexp_if (c a b : Exp) : runexp g (.list .APPLY [.atom (str "if"), c, a, b]) =
    if g.symbolOf c = str ":true" then runexp g a else runexp g b := rfl

end Constructs

section Agree

variable {g : Rest} {eval : List (List ℕ) → List ℕ}

theorem symbolOf_applyOf (c : List (List ℕ)) : g.symbolOf (applyOf c) = g.symbol c.length := by
  simp [applyOf, Rest.symbolOf]

/-- **`runexp` executes what it can.** -/
theorem runexp_of_ok : ∀ c : Ctl, c.Wf → c.Ok g.symbol eval → runexp g c.toExp = c.commands eval
  | .command argv, hw, hok => (runexp_command g hw).1 hok
  | .list [], _, _ => rfl
  | .list (a :: l), hw, hok => by
    have ha := runexp_of_ok a hw.1 hok.1
    have hl : commandsOf eval l = [] := hok.2
    rw [Ctl.commands, commandsOf, hl, List.append_nil]
    exact ha
  | .pend a b, hw, hok => by
    rw [Ctl.toExp, runexp_pend, runexp_of_ok a hw.1 hok.1, runexp_of_ok b hw.2 hok.2, Ctl.commands]
  | .loop count a, hw, hok => by
    rw [Ctl.toExp, runexp_loop, Ctl.commands]
    rcases hok with hzero | ⟨ha, hcount⟩
    · have hle := times_le count
      rw [hzero] at hle ⊢
      rw [Nat.le_zero.mp hle]
      rfl
    · rw [runexp_of_ok a hw ha]
      rcases hcount with hlt | hnil
      · rw [times_eq_iff.mpr hlt]
      · simp [hnil]
  | .ifAtom c a b, hw, hok => by
    rw [Ctl.toExp, runexp_if, Ctl.commands]
    simp only [Ctl.Ok] at hok
    have hc : g.symbolOf (.atom c) = c := rfl
    rw [hc]
    split_ifs at hok ⊢
    · exact runexp_of_ok a hw.1 hok
    · exact runexp_of_ok b hw.2 hok
  | .ifApply c a b, hw, hok => by
    rw [Ctl.toExp, runexp_if, Ctl.commands, symbolOf_applyOf]
    obtain ⟨hnone, hiff, hok⟩ := hok
    rw [hnone, List.nil_append]
    by_cases hc : eval c = str ":true"
    · rw [if_pos hc] at hok ⊢
      rw [if_pos (hiff.mpr hc)]
      exact runexp_of_ok a hw.1 hok
    · rw [if_neg hc] at hok ⊢
      rw [if_neg (mt hiff.mp hc)]
      exact runexp_of_ok b hw.2 hok

theorem length_replicate_flatten (n : ℕ) (t : Trace) :
    (List.replicate n t).flatten.length = n * t.length := by simp

theorem replicate_flatten_inj {t u : Trace} {n : ℕ} (hn : 0 < n) (hlen : t.length = u.length)
    (h : (List.replicate n t).flatten = (List.replicate n u).flatten) : t = u := by
  obtain ⟨n, rfl⟩ : ∃ n', n = n' + 1 := ⟨n - 1, by omega⟩
  rw [List.replicate_succ, List.replicate_succ, List.flatten_cons, List.flatten_cons] at h
  exact (List.append_inj h hlen).1

/-- Where every condition is an atom and a write outside the arrays ends the run, `runexp` executes no
more than it should, and the same only under the condition. -/
theorem runexp_only (hout : ∀ argv, g.outside argv = []) : ∀ c : Ctl, c.Wf → c.AtomConditions →
    (runexp g c.toExp).length ≤ (c.commands eval).length ∧
      (runexp g c.toExp = c.commands eval → c.Ok g.symbol eval)
  | .command argv, hw, _ => by
    rw [Ctl.toExp, Ctl.commands]
    obtain ⟨hyes, hno⟩ := runexp_command g hw
    by_cases hin : Intact argv
    · rw [hyes hin]
      exact ⟨le_rfl, fun _ => hin⟩
    · rcases hno hin with h | h | ⟨argv', hne, h⟩
      · rw [h, hout]
        exact ⟨Nat.zero_le _, fun h => by cases h⟩
      · rw [h]
        exact ⟨Nat.zero_le _, fun h => by cases h⟩
      · rw [h]
        exact ⟨le_rfl, fun h => absurd (List.cons.inj h).1 hne⟩
  | .list [], _, _ => ⟨Nat.zero_le _, fun _ => trivial⟩
  | .list (a :: l), hw, ha => by
    obtain ⟨hle, hok⟩ := runexp_only hout a hw.1 ha.1
    have hrun : runexp g (Ctl.list (a :: l)).toExp = runexp g a.toExp := rfl
    rw [hrun, Ctl.commands, commandsOf, List.length_append]
    refine ⟨by omega, fun h => ?_⟩
    have hlen := congrArg List.length h
    rw [List.length_append] at hlen
    have hnil : commandsOf eval l = [] := List.eq_nil_of_length_eq_zero (by omega)
    rw [hnil, List.append_nil] at h
    exact ⟨hok h, hnil⟩
  | .pend a b, hw, hc => by
    obtain ⟨hle₁, hok₁⟩ := runexp_only hout a hw.1 hc.1
    obtain ⟨hle₂, hok₂⟩ := runexp_only hout b hw.2 hc.2
    rw [Ctl.toExp, runexp_pend, Ctl.commands, List.length_append, List.length_append]
    refine ⟨by omega, fun h => ?_⟩
    have hlen := congrArg List.length h
    rw [List.length_append, List.length_append] at hlen
    obtain ⟨h₁, h₂⟩ := List.append_inj h (by omega)
    exact ⟨hok₁ h₁, hok₂ h₂⟩
  | .loop count a, hw, hc => by
    obtain ⟨hle, hok⟩ := runexp_only hout a hw hc
    have ht := times_le count
    rw [Ctl.toExp, runexp_loop, Ctl.commands]
    refine ⟨?_, fun h => ?_⟩
    · rw [length_replicate_flatten, length_replicate_flatten]
      exact Nat.mul_le_mul ht hle
    rcases Nat.eq_zero_or_pos (decimal count) with hzero | hpos
    · exact .inl hzero
    have hlen := congrArg List.length h
    rw [length_replicate_flatten, length_replicate_flatten] at hlen
    have heq : (runexp g a.toExp).length = (a.commands eval).length := by
      refine hle.antisymm (Nat.le_of_mul_le_mul_left ?_ hpos)
      calc decimal count * (a.commands eval).length
          = times count * (runexp g a.toExp).length := hlen.symm
        _ ≤ decimal count * (runexp g a.toExp).length := Nat.mul_le_mul_right _ ht
    rcases Nat.eq_zero_or_pos (a.commands eval).length with hnil | hsome
    · have hempty := List.eq_nil_of_length_eq_zero hnil
      rw [hnil] at heq
      exact .inr ⟨hok ((List.eq_nil_of_length_eq_zero heq).trans hempty.symm), .inr hempty⟩
    · rw [heq] at hlen
      have htimes := Nat.eq_of_mul_eq_mul_right hsome hlen
      rw [htimes] at h
      exact .inr ⟨hok (replicate_flatten_inj hpos heq h), .inl (times_eq_iff.mp htimes)⟩
  | .ifAtom c a b, hw, hc => by
    obtain ⟨hle₁, hok₁⟩ := runexp_only hout a hw.1 hc.1
    obtain ⟨hle₂, hok₂⟩ := runexp_only hout b hw.2 hc.2
    have hs : g.symbolOf (.atom c) = c := rfl
    rw [Ctl.toExp, runexp_if, Ctl.commands, hs]
    simp only [Ctl.Ok]
    split_ifs
    · exact ⟨hle₁, hok₁⟩
    · exact ⟨hle₂, hok₂⟩

end Agree

/-- **When control constructs run what they say.** `runexp` executes the commands that the
expression should execute if it can (`Ctl.Ok`), and, where every condition is an atom, it does so whatever
a write outside its arrays leads to only then. -/
theorem runexp_iff (g : Rest) (eval : List (List ℕ) → List ℕ) (c : Ctl) (hw : c.Wf) :
    (c.Ok g.symbol eval → runexp g c.toExp = c.commands eval) ∧
      (c.AtomConditions → ((∀ o, runexp { g with outside := o } c.toExp = c.commands eval) ↔
        c.Ok g.symbol eval)) := by
  refine ⟨runexp_of_ok c hw, fun ha => ⟨fun h => ?_, fun h o => runexp_of_ok c hw h⟩⟩
  exact (runexp_only (g := { g with outside := fun _ => [] }) (fun _ => rfl) c hw ha).2 (h _)

/-- Nothing in the places that are left open. -/
def noRest : Rest :=
  ⟨fun _ => [], fun _ => 0, fun _ _ => [], fun _ => ⟨fun _ => .null, fun _ => 0⟩, fun _ => []⟩

/-- `(pend (ls README) (repeat 2 (if :true (b) (c))))`. -/
theorem runexp_iff_pend : runexp noRest (Ctl.pend (.command [str "ls", str "README"])
    (.loop [2] (.ifAtom (str ":true") (.command [str "b"]) (.command [str "c"])))).toExp =
      [[str "ls", str "README"], [str "b"], [str "b"]] := by
  have hls : (Ctl.command [str "ls", str "README"]).Wf := ⟨by decide, by decide⟩
  have hb : (Ctl.command [str "b"]).Wf := ⟨by decide, by decide⟩
  have hc : (Ctl.command [str "c"]).Wf := ⟨by decide, by decide⟩
  have hargv : Intact [str "ls", str "README"] :=
    ⟨by decide, ⟨by decide, by decide, by decide, trivial⟩,
      List.isChain_cons_cons.2 ⟨.inl (by decide), .singleton _⟩⟩
  have hname : Intact [str "b"] := ⟨by decide, ⟨by decide, by decide, trivial⟩, .singleton _⟩
  exact (runexp_iff noRest (fun _ => []) (.pend (.command [str "ls", str "README"])
    (.loop [2] (.ifAtom (str ":true") (.command [str "b"]) (.command [str "c"]))))
    ⟨hls, hb, hc⟩).1 ⟨hargv, .inr ⟨hname, .inl (by decide)⟩⟩

/-- Of `'((a) (b))` only the first command is executed. -/
theorem list_stops : (Ctl.list [.command [str "a"], .command [str "b"]]).Wf ∧
    runexp noRest (Ctl.list [.command [str "a"], .command [str "b"]]).toExp = [[str "a"]] ∧
    (Ctl.list [.command [str "a"], .command [str "b"]]).commands (fun _ => []) =
      [[str "a"], [str "b"]] ∧
    ¬ ∀ (g : Rest) (eval : List (List ℕ) → List ℕ) (c : Ctl), c.Wf →
      runexp g c.toExp = c.commands eval := by
  have ha : (Ctl.command [str "a"]).Wf := ⟨by decide, by decide⟩
  have hb : (Ctl.command [str "b"]).Wf := ⟨by decide, by decide⟩
  refine ⟨⟨ha, hb, trivial⟩, rfl, rfl, fun h => ?_⟩
  have hlen := congrArg List.length (h noRest (fun _ => [])
    (.list [.command [str "a"], .command [str "b"]]) ⟨ha, hb, trivial⟩)
  exact absurd hlen (by decide)

end Scsh

end OsPlayground
