import OsPlayground.Scsh.Print
import OsPlayground.Sysfile.Directory

/-!
# The elements of a path

* `components`: the non-empty pieces of a path between slashes, cut to `DIRSIZ` bytes.
* `skipelem_none`, `skipelem_some`: `skipelem` takes the first one off.
* `Bytes.skipelem`: the function on the bytes of the path and of the array `name`.
* `yields_components`: called again and again, it gives the components and then 0.
-/

namespace OsPlayground

namespace Sysfile

open Scsh (At at_cons at_append)

/-- The components of a path. -/
def components (path : List ℕ) : List (List ℕ) :=
  ((path.splitOn SLASH).filter fun c => decide (c ≠ [])).map fun c => c.take DIRSIZ

section Components

variable {path : List ℕ}

theorem components_nil : components [] = [] := rfl

theorem components_slash (path : List ℕ) : components (SLASH :: path) = components path := by
  rw [components, List.splitOn_cons_eq_if_modifyHead, if_pos (beq_self_eq_true _)]
  rfl

theorem components_dropWhile (path : List ℕ) :
    components (path.dropWhile fun c => decide (c = SLASH)) = components path := by
  induction path with
  | nil => rfl
  | cons c path ih =>
    by_cases hc : c = SLASH
    · rw [List.dropWhile_cons_of_pos (p := fun c => decide (c = SLASH)) (decide_eq_true hc), ih, hc,
        components_slash]
    · rw [List.dropWhile_cons_of_neg (p := fun c => decide (c = SLASH)) (by rwa [decide_eq_true_iff])]

theorem components_elem {w : List ℕ} (hne : w ≠ []) (hw : SLASH ∉ w) (rest : List ℕ)
    (hrest : rest = [] ∨ rest.head? = some SLASH) :
    components (w ++ rest) = w.take DIRSIZ :: components rest := by
  rcases rest with _ | ⟨c, rest⟩
  · have hone : components (w ++ []) = [w.take DIRSIZ] := by
      rw [List.append_nil, components, List.splitOn_eq_singleton hw, List.filter_cons_of_pos (by simp [hne])]
      rfl
    rw [hone, components_nil]
  · obtain rfl : c = SLASH := by simpa using hrest
    have hsplit : (w ++ SLASH :: rest).splitOn SLASH = w :: rest.splitOn SLASH := by
      rw [List.splitOn_append_cons_self, List.splitOn_eq_singleton hw, List.singleton_append]
    rw [components_slash, components, hsplit, List.filter_cons_of_pos (by simp [hne])]
    rfl

end Components

/-! ## `skipelem` on lists -/

section Lists

variable {path : List ℕ}

theorem head_dropWhile_slash (l : List ℕ) : (l.dropWhile (· = SLASH)).head? ≠ some SLASH := by
  intro h
  have hne : l.dropWhile (· = SLASH) ≠ [] := by
    intro hnil
    rw [hnil] at h
    cases h
  have hnot := List.head_dropWhile_not (fun c => decide (c = SLASH)) hne
  rw [List.head?_eq_some_head hne] at h
  rw [Option.some.inj h] at hnot
  simp at hnot

theorem head_dropWhile_elem (l : List ℕ) :
    l.dropWhile (· ≠ SLASH) = [] ∨ (l.dropWhile (· ≠ SLASH)).head? = some SLASH := by
  by_cases hne : l.dropWhile (· ≠ SLASH) = []
  · exact .inl hne
  · have hnot := List.head_dropWhile_not (fun c => decide (c ≠ SLASH)) hne
    rw [decide_eq_false_iff_not, not_not] at hnot
    exact .inr (by rw [List.head?_eq_some_head hne, hnot])

/-- The pieces of a path that has an element: the slashes before it, the element, the slashes behind
it and the rest. -/
structure Pieces (path slashes w slashes' rest : List ℕ) : Prop where
  eq : path = slashes ++ (w ++ (slashes' ++ rest))
  before : ∀ c ∈ slashes, c = SLASH
  ne_nil : w ≠ []
  elem : SLASH ∉ w
  behind : ∀ c ∈ slashes', c = SLASH
  last : slashes' = [] → rest = []
  head : rest.head? ≠ some SLASH

/-- **`skipelem`** finds no element where there is no component, or it takes the first one off. -/
theorem skipelem_cases (path : List ℕ) :
    (skipelem path = none ∧ components path = [] ∧ ∀ c ∈ path, c = SLASH) ∨
    ∃ slashes w slashes' rest, Pieces path slashes w slashes' rest ∧
      skipelem path = some (w.take DIRSIZ, rest) ∧
      components path = w.take DIRSIZ :: components rest := by
  have hcomp := components_dropWhile path
  have hpath := List.takeWhile_append_dropWhile (p := fun c => decide (c = SLASH)) (l := path)
  have hbefore : ∀ c ∈ path.takeWhile (· = SLASH), c = SLASH := fun c hc =>
    of_decide_eq_true (List.mem_takeWhile_imp (p := fun c => decide (c = SLASH)) hc)
  rw [skipelem]
  generalize path.takeWhile (fun c => decide (c = SLASH)) = slashes at hpath hbefore
  have hhead := head_dropWhile_slash path
  generalize path.dropWhile (fun c => decide (c = SLASH)) = l at hcomp hpath hhead ⊢
  by_cases hl : l = []
  · rw [if_pos hl, ← hcomp, ← hpath, hl, List.append_nil]
    exact .inl ⟨rfl, rfl, hbefore⟩
  · rw [if_neg hl]
    have hsplit := List.takeWhile_append_dropWhile (p := fun c => decide (c ≠ SLASH)) (l := l)
    have helem : SLASH ∉ l.takeWhile (· ≠ SLASH) := fun hc =>
      of_decide_eq_true (List.mem_takeWhile_imp (p := fun c => decide (c ≠ SLASH)) hc) rfl
    have hrest := head_dropWhile_elem l
    have hne : l.takeWhile (· ≠ SLASH) ≠ [] := by
      intro hnil
      rw [hnil, List.nil_append] at hsplit
      rw [hsplit] at hrest
      exact hrest.elim hl hhead
    generalize l.takeWhile (fun c => decide (c ≠ SLASH)) = w at hsplit helem hne ⊢
    generalize l.dropWhile (fun c => decide (c ≠ SLASH)) = l' at hsplit hrest ⊢
    have hpath' := List.takeWhile_append_dropWhile (p := fun c => decide (c = SLASH)) (l := l')
    refine .inr ⟨slashes, w, l'.takeWhile (· = SLASH), l'.dropWhile (· = SLASH),
      ⟨by rw [hpath', hsplit, hpath], hbefore, hne, helem, fun c hc => of_decide_eq_true
        (List.mem_takeWhile_imp (p := fun c => decide (c = SLASH)) hc), fun hnil => ?_,
        head_dropWhile_slash l'⟩, rfl, ?_⟩
    · rw [hnil, List.nil_append] at hpath'
      rw [hpath']
      exact hrest.resolve_right fun h => head_dropWhile_slash l' (by rw [hpath']; exact h)
    · rw [← hcomp, ← hsplit, components_elem hne helem l' hrest, components_dropWhile]

theorem components_eq_nil (h : path.head? ≠ some SLASH) : components path = [] ↔ path = [] := by
  constructor
  · intro hnil
    rcases skipelem_cases path with ⟨-, -, hall⟩ | ⟨_, w, _, rest, -, -, hcons⟩
    · rcases path with _ | ⟨c, path⟩
      · rfl
      · exact absurd (congrArg some (hall c List.mem_cons_self)) h
    · rw [hnil] at hcons
      cases hcons
  · rintro rfl
    rfl

end Lists

/-! ## `skipelem` on bytes -/

namespace Bytes

variable (mem : ℕ → ℕ)

/-- The loop `while(p(*s)) s++`, if at most `k` tests end it. -/
def scan (p : ℕ → Bool) : ℕ → ℕ → Option ℕ
  | 0, _ => none
  | k + 1, s => if p (mem s) then scan p k (s + 1) else some s

/-- `memmove(name, s, n)`. -/
def memmove (name : ℕ → ℕ) (s n : ℕ) : ℕ → ℕ := fun j => if j < n then mem (s + j) else name j

/-- `skipelem` with at most `k` tests for each loop; the inner `none` is the null pointer. -/
def skipelem (k path : ℕ) (name : ℕ → ℕ) : Option (Option (ℕ × (ℕ → ℕ))) := do
  let path ← scan mem (fun c => decide (c = SLASH)) k path
  if mem path = 0 then return none
  else
    let s := path
    let path ← scan mem (fun c => decide (c ≠ SLASH ∧ c ≠ 0)) k path
    let len := path - s
    let name := if len ≥ DIRSIZ then memmove mem name s DIRSIZ
      else Function.update (memmove mem name s len) len 0
    let path ← scan mem (fun c => decide (c = SLASH)) k path
    return some (path, name)

/-- Called again and again, `skipelem` puts these elements into `name` and then returns 0. Nothing
behind the array is written. -/
def Yields (k : ℕ) : ℕ → List (List ℕ) → Prop
  | path, [] => ∀ name, skipelem mem k path name = some none
  | path, c :: cs => ∀ name, ∃ path' name', skipelem mem k path name = some (some (path', name')) ∧
      upto name' 0 DIRSIZ = c ∧ (∀ j, DIRSIZ ≤ j → name' j = name j) ∧ Yields k path' cs

variable {mem}

theorem scan_at {p : ℕ → Bool} {w : List ℕ} {k s : ℕ} (hat : At mem s w) (hall : ∀ c ∈ w, p c = true)
    (hstop : p (mem (s + w.length)) = false) (hk : w.length < k) : scan mem p k s = some (s + w.length) := by
  induction w generalizing k s with
  | nil =>
    obtain ⟨k, rfl⟩ := Nat.exists_eq_succ_of_ne_zero (Nat.ne_of_gt hk)
    rw [scan, if_neg (by rw [← Nat.add_zero s]; simpa using hstop)]
    rfl
  | cons c w ih =>
    obtain ⟨k, rfl⟩ := Nat.exists_eq_succ_of_ne_zero (Nat.ne_of_gt (Nat.zero_lt_of_lt hk))
    obtain ⟨hc, hw⟩ := at_cons.1 hat
    obtain ⟨hp, hall⟩ := List.forall_mem_cons.1 hall
    have hlen : s + 1 + w.length = s + (c :: w).length := by
      rw [List.length_cons]
      omega
    rw [scan, hc, if_pos hp, ih hw hall (by rw [hlen]; exact hstop) (Nat.lt_of_succ_lt_succ hk), hlen]

theorem upto_at {a : ℕ → ℕ} {w : List ℕ} {i n : ℕ} (hat : At a i w) (h0 : 0 ∉ w) (hn : w.length ≤ n)
    (hend : w.length = n ∨ a (i + w.length) = 0) : upto a i n = w := by
  induction w generalizing i n with
  | nil =>
    rcases n with _ | n
    · rfl
    · rw [upto_succ, if_neg]
      rw [not_not]
      exact hend.resolve_left (by simp)
  | cons c w ih =>
    obtain ⟨n, rfl⟩ := Nat.exists_eq_add_of_le' hn
    rw [List.length_cons] at hend
    obtain ⟨hc, hw⟩ := at_cons.1 hat
    have hne : c ≠ 0 := fun h => h0 (h ▸ List.mem_cons_self)
    rw [List.length_cons, ← Nat.add_assoc, upto_succ, hc, if_pos hne,
      ih hw (fun h => h0 (List.mem_cons_of_mem c h)) (Nat.le_add_left _ _)]
    rcases hend with he | he
    · exact .inl (by omega)
    · exact .inr (by rwa [Nat.add_right_comm])

theorem upto_name {w : List ℕ} {s : ℕ} (hat : At mem s w) (h0 : 0 ∉ w) (name : ℕ → ℕ) :
    upto (if w.length ≥ DIRSIZ then memmove mem name s DIRSIZ
      else Function.update (memmove mem name s w.length) w.length 0) 0 DIRSIZ = w.take DIRSIZ := by
  have htake : 0 ∉ w.take DIRSIZ := fun h => h0 (List.mem_of_mem_take h)
  split_ifs with hlen
  · have hlen' : (w.take DIRSIZ).length = DIRSIZ := List.length_take_of_le hlen
    refine upto_at (fun i hi => ?_) htake hlen'.le (.inl hlen')
    rw [hlen'] at hi
    rw [Nat.zero_add, memmove, if_pos hi, List.getElem_take]
    exact hat i (Nat.lt_of_lt_of_le hi hlen)
  · rw [List.take_of_length_le (Nat.le_of_not_le hlen)]
    refine upto_at (fun i hi => ?_) h0 (Nat.le_of_not_le hlen) (.inr ?_)
    · rw [Nat.zero_add, Function.update_of_ne hi.ne, memmove, if_pos hi]
      exact hat i hi
    · rw [Nat.zero_add, Function.update_self]

theorem name_frame (name : ℕ → ℕ) (s len : ℕ) {j : ℕ} (hj : DIRSIZ ≤ j) :
    (if len ≥ DIRSIZ then memmove mem name s DIRSIZ
      else Function.update (memmove mem name s len) len 0) j = name j := by
  split_ifs with hlen
  · rw [memmove, if_neg (Nat.not_lt.2 hj)]
  · have hlt : len < j := Nat.lt_of_lt_of_le (Nat.lt_of_not_le hlen) hj
    rw [Function.update_of_ne hlt.ne', memmove, if_neg (Nat.lt_asymm hlt)]

/-- A path with a NUL behind it, that is not too long for the loops. -/
structure Path (mem : ℕ → ℕ) (k s : ℕ) (path : List ℕ) : Prop where
  chars : At mem s path
  nul : mem (s + path.length) = 0
  nonzero : 0 ∉ path
  short : path.length < k

theorem skipelem_slashes {k s : ℕ} {path : List ℕ} (h : Path mem k s path) (hall : ∀ c ∈ path, c = SLASH)
    (name : ℕ → ℕ) : skipelem mem k s name = some none := by
  have hscan : scan mem (fun c => decide (c = SLASH)) k s = some (s + path.length) :=
    scan_at h.chars (fun c hc => decide_eq_true (hall c hc)) (by rw [h.nul]; rfl) h.short
  rw [skipelem, hscan]
  change (if mem (s + path.length) = 0 then _ else _) = _
  rw [if_pos h.nul]
  rfl

/-- **`skipelem` on bytes** takes the first element off, and leaves a path. -/
theorem skipelem_pieces {k s : ℕ} {path slashes w slashes' rest : List ℕ} (h : Path mem k s path)
    (hp : Pieces path slashes w slashes' rest) (name : ℕ → ℕ) :
    ∃ s' name', skipelem mem k s name = some (some (s', name')) ∧ upto name' 0 DIRSIZ = w.take DIRSIZ ∧
      (∀ j, DIRSIZ ≤ j → name' j = name j) ∧ Path mem k s' rest := by
  obtain ⟨hat, hnul, h0, hk⟩ := h
  obtain ⟨rfl, hbefore, hne, helem, hbehind, hlast, hhead⟩ := hp
  simp only [List.length_append, ← Nat.add_assoc] at hnul hk
  simp only [List.mem_append, not_or] at h0
  obtain ⟨hat₁, hat⟩ := at_append.1 hat
  obtain ⟨hat₂, hat⟩ := at_append.1 hat
  obtain ⟨hat₃, hat₄⟩ := at_append.1 hat
  -- the characters at which the three loops stop
  have hfirst : mem (s + slashes.length) ≠ SLASH ∧ mem (s + slashes.length) ≠ 0 := by
    obtain ⟨c, w, rfl⟩ := List.exists_cons_of_ne_nil hne
    rw [(at_cons.1 hat₂).1]
    exact ⟨fun hc => helem (hc ▸ List.mem_cons_self), fun hc => h0.2.1 (hc ▸ List.mem_cons_self)⟩
  have hthen : mem (s + slashes.length + w.length) = SLASH ∨ mem (s + slashes.length + w.length) = 0 := by
    rcases slashes' with _ | ⟨c, slashes'⟩
    · rw [hlast rfl] at hnul
      exact .inr hnul
    · rw [(at_cons.1 hat₃).1]
      exact .inl (hbehind c List.mem_cons_self)
  have hend : mem (s + slashes.length + w.length + slashes'.length) ≠ SLASH := by
    rcases rest with _ | ⟨c, rest⟩
    · intro hc
      rw [List.length_nil, Nat.add_zero, hc] at hnul
      cases hnul
    · rw [(at_cons.1 hat₄).1]
      exact fun hc => hhead (congrArg some hc)
  have hscan₁ : scan mem (fun c => decide (c = SLASH)) k s = some (s + slashes.length) :=
    scan_at hat₁ (fun c hc => decide_eq_true (hbefore c hc)) (decide_eq_false hfirst.1) (by omega)
  have hscan₂ : scan mem (fun c => decide (c ≠ SLASH ∧ c ≠ 0)) k (s + slashes.length) =
      some (s + slashes.length + w.length) := by
    refine scan_at hat₂ (fun c hc => decide_eq_true ⟨fun h => helem (h ▸ hc), fun h => h0.2.1 (h ▸ hc)⟩)
      (decide_eq_false fun h => ?_) (by omega)
    exact hthen.elim h.1 h.2
  have hscan₃ : scan mem (fun c => decide (c = SLASH)) k (s + slashes.length + w.length) =
      some (s + slashes.length + w.length + slashes'.length) :=
    scan_at hat₃ (fun c hc => decide_eq_true (hbehind c hc)) (decide_eq_false hend) (by omega)
  refine ⟨s + slashes.length + w.length + slashes'.length,
    if w.length ≥ DIRSIZ then memmove mem name (s + slashes.length) DIRSIZ
      else Function.update (memmove mem name (s + slashes.length) w.length) w.length 0, ?_,
    upto_name hat₂ h0.2.1 name, fun j hj => name_frame name _ _ hj, hat₄, hnul, h0.2.2.2, by omega⟩
  rw [skipelem, hscan₁]
  change (if mem (s + slashes.length) = 0 then _ else _) = _
  rw [if_neg hfirst.2]
  change (scan mem (fun c => decide (c ≠ SLASH ∧ c ≠ 0)) k (s + slashes.length)).bind _ = _
  rw [hscan₂]
  change (scan mem (fun c => decide (c = SLASH)) k (s + slashes.length + w.length)).bind _ = _
  rw [hscan₃, Nat.add_sub_cancel_left]
  rfl

/-- **Repeated `skipelem`** yields the components of the path. -/
theorem yields_components {k s : ℕ} {path : List ℕ} (h : Path mem k s path) :
    Yields mem k s (components path) := by
  induction hlen : path.length using Nat.strong_induction_on generalizing s path with
  | _ n ih =>
    rcases skipelem_cases path with ⟨-, hnil, hall⟩ | ⟨slashes, w, slashes', rest, hp, -, hcons⟩
    · rw [hnil]
      exact fun name => skipelem_slashes h hall name
    · rw [hcons]
      intro name
      obtain ⟨s', name', hskip, hname, hframe, hrest⟩ := skipelem_pieces h hp name
      have hlt : rest.length < n := by
        have hw := List.length_pos_iff.2 hp.ne_nil
        rw [← hlen, hp.eq]
        simp only [List.length_append]
        omega
      exact ⟨s', name', hskip, hname, hframe, ih rest.length hlt hrest rfl⟩

end Bytes

end Sysfile

end OsPlayground
