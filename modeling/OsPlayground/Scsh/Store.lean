import OsPlayground.Lib.Words
import OsPlayground.Scsh.Argv
import OsPlayground.Vm.Model

/-!
# Storing a body

`storeexp` copies an expression into the shared pages: nodes and strings one after the other from the
store pointer on, which it moves along.

* `setWord`, `strcpy`, `storeexp`: as the code does it, on the bytes of the shared pages up to `hi`.
* `Stands`, `blocks`: an expression read back from memory, and where its nodes and strings are.
* `Laid`: where `storeexp` puts them; `storeexp_spec`.
* **`storeexp_iff`**: when what is read back is a copy.
-/

namespace OsPlayground

open Lib

namespace Scsh

/-! ## The code -/

abbrev ATOM : ℕ := 1

/-- The `type` field. -/
def Kind.code : Kind → ℕ
  | .LIST => 2
  | .APPLY => 3

/-- `sizeof(struct sexp)`. -/
abbrev SEXPSIZE : ℕ := 4

/-- `sizeof(struct atom)`. -/
abbrev ATOMSIZE : ℕ := 12

/-- `sizeof(struct list)`. -/
abbrev LISTSIZE : ℕ := 48

/-- `getsharem(1)`. -/
abbrev SHARE : ℕ := KERNBASE - 2 * PGSIZE

/-- The word of 4 bytes at `a`. -/
def word (m : Bytes) (a : ℕ) : ℕ := getLE m a 4

/-- Store a word; `hi` is the end of the shared pages that are mapped. Outside them the child ends, with
the bytes as they are. -/
def setWord (hi a w : ℕ) (m : Bytes) : Except Bytes Bytes :=
  if SHARE ≤ a ∧ a + 4 ≤ hi then .ok (putLE m a 4 w) else .error m

/-- The bytes with the string `s` and its NUL at `a`. -/
def putStr (a : ℕ) (s : List ℕ) (m : Bytes) : Bytes := fun q =>
  if a ≤ q ∧ q ≤ a + s.length then s.getD (q - a) 0 else m q

/-- `strcpy`. At the end of the pages the child ends, with the bytes before it written. -/
def strcpy (hi a : ℕ) (s : List ℕ) (m : Bytes) : Except Bytes Bytes :=
  if SHARE ≤ a then
    if a + s.length < hi then .ok (putStr a s m)
    else .error fun q => if q < hi then putStr a s m q else m q
  else .error m

mutual

/-- `storeexp`; `p` is the address of the store pointer `*st`. -/
def storeexp (hi p : ℕ) : Exp → Bytes → Except Bytes Bytes
  | .atom s, m => do
    let atm0 := word m p
    let m ← setWord hi atm0 ATOM m
    let m ← strcpy hi (atm0 + ATOMSIZE) s m
    let m ← setWord hi (atm0 + 4) (atm0 + ATOMSIZE) m
    -- `*st` counts in `struct sexp`; `atm0->esymbol`, at `atm0 + 8`, is not assigned
    setWord hi p (word m p + SEXPSIZE * (ATOMSIZE + s.length)) m
  | .list k l, m => do
    let lst0 := word m p
    let m ← setWord hi lst0 k.code m
    let m ← setWord hi (lst0 + 4) l.length m
    let m ← setWord hi p (word m p + SEXPSIZE * LISTSIZE) m
    storeexps hi p lst0 0 l m

/-- The loop over the elements, from index `i` on. -/
def storeexps (hi p lst0 : ℕ) : ℕ → List Exp → Bytes → Except Bytes Bytes
  | _, [], m => .ok m
  | i, e :: l, m => do
    let m ← setWord hi (lst0 + 8 + 4 * i) (word m p) m
    let m ← storeexp hi p e m
    storeexps hi p lst0 (i + 1) l m

end

/-! ## Copies -/

/-- What the parser makes: strings without NUL, lists that fit into `sexps`. -/
inductive Parsed : Exp → Prop
  | atom {s : List ℕ} : 0 ∉ s → Parsed (.atom s)
  | list {k : Kind} {l : List Exp} : l.length ≤ MAXARGS → (∀ e ∈ l, Parsed e) → Parsed (.list k l)

mutual

/-- What is read at `a` is `e`; `esymbol` is the end of the string at `symbol`. -/
def Stands (m : Bytes) : Exp → ℕ → Prop
  | .atom s, a => word m a = ATOM ∧ StrAt m (word m (a + 4)) s ∧
      word m (a + 8) = word m (a + 4) + s.length
  | .list k l, a => word m a = k.code ∧ word m (a + 4) = l.length ∧ StandAll m l (a + 8)

/-- What the pointers from `q` on point to are the elements of `l`. -/
def StandAll (m : Bytes) : List Exp → ℕ → Prop
  | [], _ => True
  | e :: l, q => Stands m e (word m q) ∧ StandAll m l (q + 4)

end

mutual

/-- The nodes and strings of what is read at `a`: address and size. -/
def blocks (m : Bytes) : Exp → ℕ → List (ℕ × ℕ)
  | .atom s, a => [(a, ATOMSIZE), (word m (a + 4), s.length + 1)]
  | .list _ l, a => (a, LISTSIZE) :: blocksAll m l (a + 8)

/-- The same of the elements that the pointers from `q` on point to. -/
def blocksAll (m : Bytes) : List Exp → ℕ → List (ℕ × ℕ)
  | [], _ => []
  | e :: l, q => blocks m e (word m q) ++ blocksAll m l (q + 4)

end

/-- Two places do not overlap. -/
def Separate (b c : ℕ × ℕ) : Prop := b.1 + b.2 ≤ c.1 ∨ c.1 + c.2 ≤ b.1

/-- `m'` has a copy of `e`, all of it between the old and the new value of the store pointer. -/
structure Copied (p : ℕ) (m m' : Bytes) (e : Exp) : Prop where
  stands : Stands m' e (word m p)
  inside : ∀ b ∈ blocks m' e (word m p), word m p ≤ b.1 ∧ b.1 + b.2 ≤ word m' p
  apart : (blocks m' e (word m p)).Pairwise Separate

mutual

/-- How far `storeexp` moves the store pointer. -/
def Exp.size : Exp → ℕ
  | .atom s => SEXPSIZE * (ATOMSIZE + s.length)
  | .list _ l => SEXPSIZE * LISTSIZE + Exp.sizes l

/-- The sum of the sizes. -/
def Exp.sizes : List Exp → ℕ
  | [] => 0
  | e :: l => e.size + Exp.sizes l

end

mutual

/-- Where the atoms of `e` get to, `esymbol` already holds the end of the string. -/
def Ends (m : Bytes) : Exp → ℕ → Prop
  | .atom s, a => word m (a + 8) = a + ATOMSIZE + s.length
  | .list _ l, a => EndsAll m l (a + SEXPSIZE * LISTSIZE)

/-- The same of the elements, stored one after the other. -/
def EndsAll (m : Bytes) : List Exp → ℕ → Prop
  | [], _ => True
  | e :: l, a => Ends m e a ∧ EndsAll m l (a + e.size)

end

/-! ## The layout -/

mutual

/-- `e` at `a` as `storeexp` places it, `esymbol` left out. -/
def Laid (m : Bytes) : Exp → ℕ → Prop
  | .atom s, a => word m a = ATOM ∧ word m (a + 4) = a + ATOMSIZE ∧ StrAt m (a + ATOMSIZE) s
  | .list k l, a => word m a = k.code ∧ word m (a + 4) = l.length ∧
      LaidAll m l (a + 8) (a + SEXPSIZE * LISTSIZE)

/-- The elements of `l` from `a` on, and the pointers to them from `q` on. -/
def LaidAll (m : Bytes) : List Exp → ℕ → ℕ → Prop
  | [], _, _ => True
  | e :: l, q, a => word m q = a ∧ Laid m e a ∧ LaidAll m l (q + 4) (a + e.size)

end

section Words

variable {m m' : Bytes} {a b hi q w : ℕ} {s : List ℕ}

theorem word_congr (h : ∀ q, a ≤ q → q < a + 4 → m' q = m q) : word m' a = word m a :=
  getLE_congr h

theorem word_put (hw : w ≤ KERNBASE) : word (putLE m a 4 w) a = w :=
  getLE_putLE (lt_of_le_of_lt hw (by decide))

theorem putLE_of_out (h : q < a ∨ a + 4 ≤ q) : putLE m a 4 w q = m q := if_neg (by omega)

theorem putStr_of_out (h : q < a ∨ a + s.length < q) : putStr a s m q = m q := if_neg (by omega)

theorem word_put_of_out (h : b + 4 ≤ a ∨ a + 4 ≤ b) : word (putLE m a 4 w) b = word m b :=
  getLE_putLE_of_disjoint h

theorem word_putStr_of_out (h : b + 4 ≤ a ∨ a + s.length < b) :
    word (putStr a s m) b = word m b :=
  word_congr fun q hq hq' => putStr_of_out (by omega)

theorem strAt_congr (h : ∀ q, a ≤ q → q ≤ a + s.length → m' q = m q) (hs : StrAt m a s) :
    StrAt m' a s := fun k hk => (h _ (by omega) (by omega)).trans (hs k hk)

theorem strAt_putStr : StrAt (putStr a s m) a s := fun k hk => by
  rw [putStr, if_pos ⟨by omega, by omega⟩, Nat.add_sub_cancel_left]

theorem setWord_ok (h : SHARE ≤ a) (h' : a + 4 ≤ hi) :
    setWord hi a w m = .ok (putLE m a 4 w) := if_pos ⟨h, h'⟩

theorem strcpy_ok (h : SHARE ≤ a) (h' : a + s.length < hi) :
    strcpy hi a s m = .ok (putStr a s m) := by rw [strcpy, if_pos h, if_pos h']

theorem ok_bind (f : Bytes → Except Bytes Bytes) : (Except.ok m >>= f) = f m := rfl

end Words

theorem Parsed.mem {k : Kind} {l : List Exp} (h : Parsed (.list k l)) : ∀ e ∈ l, Parsed e := by
  cases h with
  | list _ h => exact h

theorem Parsed.length_le {k : Kind} {l : List Exp} (h : Parsed (.list k l)) : l.length ≤ MAXARGS := by
  cases h with
  | list h _ => exact h

/-! ## What the layout depends on -/

section Congr

variable {m m' : Bytes}

mutual

theorem laid_congr : ∀ {e : Exp} {a : ℕ}, Parsed e →
    (∀ q, a ≤ q → q < a + e.size → m' q = m q) → Laid m e a → Laid m' e a
  | .atom s, a, _, h, hl => by
    simp only [Exp.size, SEXPSIZE, ATOMSIZE] at h
    obtain ⟨htype, hsymbol, hstr⟩ := hl
    refine ⟨?_, ?_, strAt_congr (fun q hq hq' => h q (by omega) ?_) hstr⟩
    · rw [word_congr fun q hq hq' => h q (by omega) (by omega), htype]
    · rw [word_congr fun q hq hq' => h q (by omega) (by omega), hsymbol]
    · simp only [ATOMSIZE] at hq'
      omega
  | .list k l, a, hp, h, hl => by
    have hlen : l.length ≤ 10 := hp.length_le
    simp only [Exp.size, SEXPSIZE, LISTSIZE] at h
    obtain ⟨htype, hlength, hall⟩ := hl
    refine ⟨?_, ?_, laidAll_congr hp.mem (fun q hq hq' => h q (by omega) (by omega))
      (fun q hq hq' => h q (le_trans (Nat.le_add_right _ _) hq) (by rwa [← Nat.add_assoc])) hall⟩
    · rw [word_congr fun q hq hq' => h q (by omega) (by omega), htype]
    · rw [word_congr fun q hq hq' => h q (by omega) (by omega), hlength]

theorem laidAll_congr : ∀ {l : List Exp} {p a : ℕ}, (∀ e ∈ l, Parsed e) →
    (∀ q, p ≤ q → q < p + 4 * l.length → m' q = m q) →
    (∀ q, a ≤ q → q < a + Exp.sizes l → m' q = m q) → LaidAll m l p a → LaidAll m' l p a
  | [], _, _, _, _, _, _ => trivial
  | e :: l, p, a, hp, hw, h, hl => by
    rw [List.length_cons] at hw
    rw [Exp.sizes] at h
    obtain ⟨hptr, he, hall⟩ := hl
    refine ⟨?_, laid_congr (hp e List.mem_cons_self) (fun q hq hq' => h q hq (by omega)) he,
      laidAll_congr (fun e' h' => hp e' (List.mem_cons_of_mem _ h'))
        (fun q hq hq' => hw q (by omega) (by omega))
        (fun q hq hq' => h q (by omega) (by omega)) hall⟩
    rw [word_congr fun q hq hq' => hw q hq (by omega), hptr]

end

mutual

theorem ends_congr : ∀ {e : Exp} {a : ℕ}, (∀ q, a ≤ q → q < a + e.size → m' q = m q) →
    (Ends m' e a ↔ Ends m e a)
  | .atom s, a, h => by
    simp only [Exp.size, SEXPSIZE, ATOMSIZE] at h
    rw [Ends, Ends, word_congr fun q hq hq' => h q (by omega) (by omega)]
  | .list k l, a, h => by
    simp only [Exp.size] at h
    exact endsAll_congr fun q hq hq' => h q (by omega) (by omega)

theorem endsAll_congr : ∀ {l : List Exp} {a : ℕ}, (∀ q, a ≤ q → q < a + Exp.sizes l → m' q = m q) →
    (EndsAll m' l a ↔ EndsAll m l a)
  | [], _, _ => Iff.rfl
  | e :: l, a, h => by
    rw [Exp.sizes] at h
    exact and_congr (ends_congr fun q hq hq' => h q hq (by omega))
      (endsAll_congr fun q hq hq' => h q (by omega) (by omega))

end

end Congr

/-! ## What is read back -/

section Read

variable {m : Bytes}

mutual

theorem Laid.stands_iff : ∀ {e : Exp} {a : ℕ}, Laid m e a → (Stands m e a ↔ Ends m e a)
  | .atom s, a, ⟨htype, hsymbol, hstr⟩ => by
    rw [Stands, Ends, hsymbol]
    exact ⟨fun h => h.2.2, fun h => ⟨htype, hstr, h⟩⟩
  | .list k l, a, ⟨htype, hlength, hall⟩ => by
    rw [Stands, Ends, hall.stands_iff]
    exact ⟨fun h => h.2.2, fun h => ⟨htype, hlength, h⟩⟩

theorem LaidAll.stands_iff : ∀ {l : List Exp} {q a : ℕ}, LaidAll m l q a →
    (StandAll m l q ↔ EndsAll m l a)
  | [], _, _, _ => Iff.rfl
  | e :: l, q, a, ⟨hptr, he, hall⟩ => by
    rw [StandAll, EndsAll, hptr, he.stands_iff, hall.stands_iff]

end

mutual

theorem Laid.inside : ∀ {e : Exp} {a : ℕ}, Laid m e a →
    ∀ b ∈ blocks m e a, a ≤ b.1 ∧ b.1 + b.2 ≤ a + e.size
  | .atom s, a, ⟨_, hsymbol, _⟩, b, hb => by
    rw [blocks, hsymbol, List.mem_cons, List.mem_singleton] at hb
    simp only [Exp.size, SEXPSIZE, ATOMSIZE] at hb ⊢
    rcases hb with rfl | rfl
    · exact ⟨le_rfl, by dsimp only; omega⟩
    · exact ⟨Nat.le_add_right _ _, by dsimp only; omega⟩
  | .list k l, a, ⟨_, _, hall⟩, b, hb => by
    rw [blocks, List.mem_cons] at hb
    simp only [Exp.size, SEXPSIZE, LISTSIZE] at hb ⊢
    rcases hb with rfl | hb
    · exact ⟨le_rfl, by dsimp only; omega⟩
    · obtain ⟨h, h'⟩ := hall.inside b hb
      exact ⟨le_trans (Nat.le_add_right _ _) h, by rwa [← Nat.add_assoc]⟩

theorem LaidAll.inside : ∀ {l : List Exp} {q a : ℕ}, LaidAll m l q a →
    ∀ b ∈ blocksAll m l q, a ≤ b.1 ∧ b.1 + b.2 ≤ a + Exp.sizes l
  | [], _, _, _, b, hb => absurd hb List.not_mem_nil
  | e :: l, q, a, ⟨hptr, he, hall⟩, b, hb => by
    rw [blocksAll, hptr, List.mem_append] at hb
    rw [Exp.sizes]
    rcases hb with hb | hb
    · obtain ⟨h, h'⟩ := he.inside b hb
      exact ⟨h, by omega⟩
    · obtain ⟨h, h'⟩ := hall.inside b hb
      exact ⟨by omega, by omega⟩

end

mutual

theorem Laid.apart : ∀ {e : Exp} {a : ℕ}, Laid m e a → (blocks m e a).Pairwise Separate
  | .atom s, a, ⟨_, hsymbol, _⟩ => by
    rw [blocks, hsymbol]
    refine List.pairwise_cons.2 ⟨fun b hb => ?_, List.pairwise_singleton _ _⟩
    obtain rfl := List.mem_singleton.1 hb
    exact Or.inl le_rfl
  | .list k l, a, ⟨_, _, hall⟩ => by
    rw [blocks]
    refine List.pairwise_cons.2 ⟨fun b hb => Or.inl ?_, hall.apart⟩
    have := (hall.inside b hb).1
    simp only [SEXPSIZE, LISTSIZE] at this ⊢
    omega

theorem LaidAll.apart : ∀ {l : List Exp} {q a : ℕ}, LaidAll m l q a →
    (blocksAll m l q).Pairwise Separate
  | [], _, _, _ => List.Pairwise.nil
  | e :: l, q, a, ⟨hptr, he, hall⟩ => by
    rw [blocksAll, hptr]
    refine List.pairwise_append.2 ⟨he.apart, hall.apart, fun b hb c hc => Or.inl ?_⟩
    exact (he.inside b hb).2.trans (hall.inside c hc).1

end

end Read

/-! ## What `storeexp` does -/

/-- After `e` went to `st`; `p` is the address of the store pointer. -/
structure Placed (p st : ℕ) (m m' : Bytes) (e : Exp) : Prop where
  top : word m' p = st + e.size
  laid : Laid m' e st
  ends : Ends m' e st ↔ Ends m e st
  rest : ∀ q, q < p ∨ p + 4 ≤ q → q < st ∨ st + e.size ≤ q → m' q = m q

/-- After the elements of `l` went to `st`, with the pointers from `r` on. -/
structure PlacedAll (p r st : ℕ) (m m' : Bytes) (l : List Exp) : Prop where
  top : word m' p = st + Exp.sizes l
  laid : LaidAll m' l r st
  ends : EndsAll m' l st ↔ EndsAll m l st
  rest : ∀ q, q < p ∨ p + 4 ≤ q → q < r ∨ r + 4 * l.length ≤ q →
    q < st ∨ st + Exp.sizes l ≤ q → m' q = m q

section Spec

variable {m m' : Bytes} {hi p st : ℕ}

theorem storeexp_atom {s : List ℕ} (hhi : hi ≤ KERNBASE) (hp : SHARE ≤ p) (hst : p + 4 ≤ st) (htop : word m p = st)
    (hroom : st + (Exp.atom s).size ≤ hi) :
    ∃ m', storeexp hi p (.atom s) m = .ok m' ∧ Placed p st m m' (.atom s) := by
  have hK : KERNBASE = 2147483648 := rfl
  simp only [Exp.size, SEXPSIZE, ATOMSIZE] at hroom
  let m₁ := putLE m st 4 ATOM
  let m₂ := putStr (st + ATOMSIZE) s m₁
  let m₃ := putLE m₂ (st + 4) 4 (st + ATOMSIZE)
  let m₄ := putLE m₃ p 4 (st + SEXPSIZE * (ATOMSIZE + s.length))
  have htop₃ : word m₃ p = st := by
    rw [word_put_of_out (by omega), word_putStr_of_out (by simp only [ATOMSIZE]; omega),
      word_put_of_out (by omega), htop]
  have hbyte : ∀ q, q < p ∨ p + 4 ≤ q → q < st + 4 ∨ st + 8 ≤ q → m₄ q = m₂ q := by
    intro q hp hq
    rw [show m₄ q = m₃ q from putLE_of_out hp]
    exact putLE_of_out (by omega)
  have hout : ∀ q, q < p ∨ p + 4 ≤ q → q < st ∨ st + 8 ≤ q → q < st + 12 ∨ st + 12 + s.length < q →
      m₄ q = m q := by
    intro q hp hq hq'
    rw [hbyte q hp (by omega), show m₂ q = m₁ q from putStr_of_out (by simpa only [ATOMSIZE] using hq')]
    exact putLE_of_out (by omega)
  refine ⟨m₄, ?_, ⟨word_put (by simp only [SEXPSIZE, ATOMSIZE]; omega), ⟨?_, ?_, ?_⟩, ?_, ?_⟩⟩
  · rw [storeexp, htop, setWord_ok (by omega) (by omega), ok_bind,
      strcpy_ok (by simp only [ATOMSIZE]; omega) (by simp only [ATOMSIZE]; omega), ok_bind,
      setWord_ok (by omega) (by omega), ok_bind, setWord_ok hp (by omega)]
    exact congrArg (fun w => Except.ok (putLE m₃ p 4 (w + SEXPSIZE * (ATOMSIZE + s.length)))) htop₃
  · rw [word_congr fun q hq hq' => hbyte q (by omega) (by omega),
      word_putStr_of_out (by simp only [ATOMSIZE]; omega)]
    exact word_put (by decide)
  · rw [show word m₄ (st + 4) = word m₃ (st + 4) from word_put_of_out (by omega)]
    exact word_put (by simp only [ATOMSIZE]; omega)
  · refine strAt_congr (m := m₂) (fun q hq hq' => ?_) strAt_putStr
    simp only [ATOMSIZE] at hq hq'
    exact hbyte q (by omega) (by omega)
  · rw [Ends, Ends, word_congr fun q hq hq' => hout q (by omega) (by omega) (by omega)]
  · intro q hq hq'
    simp only [Exp.size, SEXPSIZE, ATOMSIZE] at hq'
    exact hout q hq (by omega) (by omega)

mutual

/-- **`storeexp`** where there is room. -/
theorem storeexp_spec (hhi : hi ≤ KERNBASE) : ∀ {e : Exp} {m : Bytes} {st : ℕ}, Parsed e → SHARE ≤ p → p + 4 ≤ st →
    word m p = st → st + e.size ≤ hi →
    ∃ m', storeexp hi p e m = .ok m' ∧ Placed p st m m' e
  | .atom s, _, _, _, hp, hst, htop, hroom => storeexp_atom hhi hp hst htop hroom
  | .list k l, m, st, hparsed, hp, hst, htop, hroom => by
    have hK : KERNBASE = 2147483648 := rfl
    have hlen : l.length ≤ 10 := hparsed.length_le
    have hcode : k.code ≤ KERNBASE := by cases k <;> decide
    simp only [Exp.size, SEXPSIZE, LISTSIZE] at hroom
    let m₁ := putLE m st 4 k.code
    let m₂ := putLE m₁ (st + 4) 4 l.length
    let m₃ := putLE m₂ p 4 (st + SEXPSIZE * LISTSIZE)
    have htop₂ : word m₂ p = st := by
      rw [word_put_of_out (by omega), word_put_of_out (by omega), htop]
    have hhead : ∀ q, q < p ∨ p + 4 ≤ q → q < st ∨ st + 8 ≤ q → m₃ q = m q := by
      intro q hp hq
      rw [show m₃ q = m₂ q from putLE_of_out hp, show m₂ q = m₁ q from putLE_of_out (by omega)]
      exact putLE_of_out (by omega)
    obtain ⟨m₄, hm₄, h⟩ := storeexps_spec hhi (l := l) (m := m₃) (i := 0) hparsed.mem hp hst
      (show st + 8 + 4 * 0 + 4 * l.length ≤ st + SEXPSIZE * LISTSIZE by
        simp only [SEXPSIZE, LISTSIZE]; omega)
      (word_put (by simp only [SEXPSIZE, LISTSIZE]; omega))
      (by simp only [SEXPSIZE, LISTSIZE]; omega)
    have hkeep : ∀ q, q < p ∨ p + 4 ≤ q → q < st + 8 → m₄ q = m₃ q := by
      intro q hq hq'
      exact h.rest q hq (Or.inl (by omega)) (Or.inl (by simp only [SEXPSIZE, LISTSIZE]; omega))
    refine ⟨m₄, ?_, ⟨?_, ⟨?_, ?_, h.laid⟩, ?_, fun q hq hq' => ?_⟩⟩
    · rw [storeexp, htop, setWord_ok (by omega) (by omega), ok_bind, setWord_ok (by omega) (by omega), ok_bind,
        show word (putLE (putLE m st 4 k.code) (st + 4) 4 l.length) p = st from htop₂,
        setWord_ok hp (by omega), ok_bind]
      exact hm₄
    · rw [h.top, Exp.size, Nat.add_assoc]
    · rw [word_congr fun q hq hq' => hkeep q (by omega) (by omega),
        show word m₃ st = word m₂ st from word_put_of_out (by omega), word_put_of_out (by omega)]
      exact word_put hcode
    · rw [word_congr fun q hq hq' => hkeep q (by omega) (by omega),
        show word m₃ (st + 4) = word m₂ (st + 4) from word_put_of_out (by omega)]
      exact word_put (by omega)
    · refine h.ends.trans (endsAll_congr fun q hq hq' => hhead q ?_ ?_)
      · simp only [SEXPSIZE, LISTSIZE] at hq
        omega
      · simp only [SEXPSIZE, LISTSIZE] at hq
        omega
    · simp only [Exp.size, SEXPSIZE, LISTSIZE] at hq'
      rw [h.rest q hq (by omega) (by simp only [SEXPSIZE, LISTSIZE]; omega)]
      exact hhead q hq (by omega)

theorem storeexps_spec (hhi : hi ≤ KERNBASE) : ∀ {l : List Exp} {m : Bytes} {lst0 i st : ℕ}, (∀ e ∈ l, Parsed e) →
    SHARE ≤ p → p + 4 ≤ lst0 → lst0 + 8 + 4 * i + 4 * l.length ≤ st → word m p = st →
    st + Exp.sizes l ≤ hi →
    ∃ m', storeexps hi p lst0 i l m = .ok m' ∧ PlacedAll p (lst0 + 8 + 4 * i) st m m' l
  | [], m, _, _, _, _, _, _, _, htop, _ =>
    ⟨m, rfl, ⟨htop, trivial, Iff.rfl, fun _ _ _ _ => rfl⟩⟩
  | e :: l, m, lst0, i, st, hparsed, hp, hlst, hst, htop, hroom => by
    have hK : KERNBASE = 2147483648 := rfl
    rw [List.length_cons] at hst
    rw [Exp.sizes] at hroom
    let m₁ := putLE m (lst0 + 8 + 4 * i) 4 st
    have hout₁ : ∀ q, q < lst0 + 8 + 4 * i ∨ lst0 + 8 + 4 * i + 4 ≤ q → m₁ q = m q :=
      fun q hq => putLE_of_out hq
    obtain ⟨m₂, hm₂, h₂⟩ := storeexp_spec hhi (e := e) (m := m₁) (hparsed e List.mem_cons_self) hp
      (show p + 4 ≤ st by omega) ((word_put_of_out (by omega)).trans htop) (by omega)
    obtain ⟨m₃, hm₃, h₃⟩ := storeexps_spec hhi (l := l) (m := m₂) (i := i + 1)
      (fun e' h' => hparsed e' (List.mem_cons_of_mem _ h')) hp hlst (by omega) h₂.top (by omega)
    have hkeep : ∀ q, q < p ∨ p + 4 ≤ q → q < lst0 + 8 + 4 * (i + 1) ∨
        st ≤ q ∧ q < st + e.size → m₃ q = m₂ q :=
      fun q hq hq' => h₃.rest q hq (by omega) (by omega)
    refine ⟨m₃, ?_, ⟨?_, ⟨?_, ?_, h₃.laid⟩, ?_, fun q hq hr hq' => ?_⟩⟩
    · rw [storeexps, htop, setWord_ok (by omega) (by omega), ok_bind, hm₂, ok_bind, hm₃]
    · rw [h₃.top, Exp.sizes, Nat.add_assoc]
    · rw [word_congr fun q hq hq' => hkeep q (by omega) (by omega),
        word_congr fun q hq hq' => h₂.rest q (by omega) (by omega)]
      exact word_put (by omega)
    · exact laid_congr (hparsed e List.mem_cons_self)
        (fun q hq hq' => hkeep q (by omega) (Or.inr ⟨hq, hq'⟩)) h₂.laid
    · rw [EndsAll, EndsAll, ends_congr fun q hq hq' => hkeep q (by omega) (Or.inr ⟨hq, hq'⟩),
        h₂.ends, ends_congr fun q hq hq' => hout₁ q (by omega), h₃.ends,
        endsAll_congr fun q hq hq' =>
          (h₂.rest q (by omega) (by omega)).trans (hout₁ q (by omega))]
    · rw [List.length_cons] at hr
      rw [Exp.sizes] at hq'
      rw [h₃.rest q hq (by omega) (by omega), h₂.rest q hq (by omega)]
      exact hout₁ q (by omega)

end

theorem Placed.copied_iff {e : Exp} (h : Placed p st m m' e) (htop : word m p = st) :
    Copied p m m' e ↔ Ends m e st := by
  constructor
  · intro hc
    rw [← h.ends, ← h.laid.stands_iff, ← htop]
    exact hc.stands
  · intro he
    refine ⟨?_, ?_, ?_⟩
    · rw [htop, h.laid.stands_iff, h.ends]
      exact he
    · rw [htop, h.top]
      exact h.laid.inside
    · rw [htop]
      exact h.laid.apart

/-- **`storeexp` copies** if and only if each atom gets to a place where `esymbol`, which is never
assigned, already holds the end of the string. -/
theorem storeexp_iff {e : Exp} (hhi : hi ≤ KERNBASE) (he : Parsed e) (hp : SHARE ≤ p)
    (hst : p + 4 ≤ word m p) (hroom : word m p + e.size ≤ hi) :
    (∃ m', storeexp hi p e m = .ok m' ∧ Copied p m m' e) ↔ Ends m e (word m p) := by
  obtain ⟨m', hm', h⟩ := storeexp_spec hhi he hp hst rfl hroom
  rw [hm', ← h.copied_iff rfl]
  exact ⟨fun ⟨_, heq, hc⟩ => Except.ok.inj heq ▸ hc, fun hc => ⟨m', rfl, hc⟩⟩

end Spec

/-- Memory of zeros but for the store pointer, which points behind itself. -/
def zeroShare : Bytes := putLE (fun _ => 0) SHARE 4 (SHARE + 4)

theorem word_zeroShare : word zeroShare SHARE = SHARE + 4 := word_put (by decide)

/-- `(echo x '(y))` -/
def echoBody : Exp :=
  .list .APPLY [.atom (str "echo"), .atom (str "x"), .list .LIST [.atom (str "y")]]

theorem parsed_echoBody : Parsed echoBody := by
  have hy : Parsed (.list .LIST [.atom (str "y")]) :=
    .list (by decide) fun e he => List.mem_singleton.1 he ▸ .atom (by decide)
  refine .list (by decide) fun e he => ?_
  rcases List.mem_cons.1 he with rfl | he
  · exact .atom (by decide)
  rcases List.mem_cons.1 he with rfl | he
  · exact .atom (by decide)
  · exact List.mem_singleton.1 he ▸ hy

/-- The pages after an earlier copy: the words at the `esymbol` of the three atoms are right. -/
def usedShare : Bytes :=
  putLE (putLE (putLE zeroShare (SHARE + 204) 4 (SHARE + 212)) (SHARE + 268) 4 (SHARE + 273))
    (SHARE + 512) 4 (SHARE + 517)

theorem word_usedShare : word usedShare SHARE = SHARE + 4 :=
  ((word_put_of_out (.inl (by decide))).trans ((word_put_of_out (.inl (by decide))).trans
    (word_put_of_out (.inl (by decide))))).trans word_zeroShare

/-- Nested lists with three atoms are copied into pages that held the same copy before. -/
theorem storeexp_iff_used : ∃ m', storeexp KERNBASE SHARE echoBody usedShare = .ok m' ∧
    Copied SHARE usedShare m' echoBody := by
  have hecho : word usedShare (SHARE + 204) = SHARE + 212 :=
    (word_put_of_out (.inl (by decide))).trans
      ((word_put_of_out (.inl (by decide))).trans (word_put (by decide)))
  have hx : word usedShare (SHARE + 268) = SHARE + 273 :=
    (word_put_of_out (.inl (by decide))).trans (word_put (by decide))
  have hy : word usedShare (SHARE + 512) = SHARE + 517 := word_put (by decide)
  refine (storeexp_iff le_rfl parsed_echoBody le_rfl (by rw [word_usedShare])
    (by rw [word_usedShare]; decide)).mpr ?_
  rw [word_usedShare]
  exact ⟨hecho, hx, ⟨hy, trivial⟩, trivial⟩

/-- One atom in pages of zeros: its `esymbol` is 0. -/
theorem not_copied : ¬ ∀ (p : ℕ) (m : Bytes) (e : Exp), Parsed e → SHARE ≤ p → p + 4 ≤ word m p →
    word m p + e.size ≤ KERNBASE → ∃ m', storeexp KERNBASE p e m = .ok m' ∧ Copied p m m' e := by
  intro hall
  have hparsed : Parsed (.atom (str "x")) := .atom (by decide)
  have hroom : word zeroShare SHARE + (Exp.atom (str "x")).size ≤ KERNBASE := by
    rw [word_zeroShare]
    decide
  have hst : SHARE + 4 ≤ word zeroShare SHARE := by rw [word_zeroShare]
  obtain ⟨m', hm', hc⟩ := hall SHARE zeroShare _ hparsed le_rfl hst hroom
  obtain ⟨m₁, hm₁, h⟩ := storeexp_spec le_rfl hparsed le_rfl hst rfl hroom
  obtain rfl := Except.ok.inj (hm₁.symm.trans hm')
  have hends := (h.copied_iff rfl).1 hc
  rw [word_zeroShare] at hends
  have hzero : word zeroShare (SHARE + 4 + 8) = 0 :=
    (word_put_of_out (Or.inr (by decide))).trans (getLE_of_zero fun _ _ _ => rfl)
  rw [Ends, hzero] at hends
  exact absurd hends (by decide)

end Scsh

end OsPlayground
