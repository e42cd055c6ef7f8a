import OsPlayground.Scsh.Grammar

/-!
# The lines that the parser accepts

* `reach`: the values of the read position.
* `Good`: the tree of an expression, once the terminators are written.
* `Gets`, `elements_body`, **`gets_text`**: the parser gets an expression of the grammar.
* `Clean`: in the first list no blank before a closing parenthesis, no quote alone and no list that
  is too long.
* **`parseexp_exact`**: on a clean line the parser accepts exactly the grammar.
-/

namespace OsPlayground

namespace Scsh

section Reach

variable (mem : ℕ → ℕ)

/-- The read position in the loop over the elements, and after the step behind the list. -/
def reachElements (parse : ℕ → ℕ → Except Stop (Sexp × ℕ)) (reach : ℕ → ℕ → List ℕ) (res : ℕ) :
    ℕ → ℕ → List ℕ
  | 0, ps => [ps + 1]
  | n + 1, ps =>
    if ps < res then
      reach ps res ++ match parse ps res with
        | .ok (_, ps) => reachElements parse reach res n ps
        | .error _ => []
    else [ps + 1]

/-- The scan goes up to `res`. -/
def reachList (parse : ℕ → ℕ → Except Stop (Sexp × ℕ)) (reach : ℕ → ℕ → List ℕ) (ps es : ℕ) :
    List ℕ :=
  let res := matching mem (es - ps) 1 ps
  ps :: res :: if res = es then [] else reachElements parse reach res MAXARGS ps

/-- The values of the read position in `parsesexp` and in what it calls. -/
def reach : ℕ → ℕ → ℕ → List ℕ
  | 0, _, _ => []
  | fuel + 1, ps, es =>
    let ps := skipWs mem ps es
    ps :: match mem ps with
      | 0 => []
      | 40 => reachList mem (parsesexp mem fuel) (reach fuel) (ps + 1) es
      | 39 => reachList mem (parsesexp mem fuel) (reach fuel) (ps + 2) es
      | _ => [(parseatom mem ps es).2]

end Reach

section Gets

variable {mem : ℕ → ℕ}

/-! ## Trees -/

/-- The terminators of the tree are written over bytes that end an atom, and with these written the
tree is the expression. -/
def Good (mem : ℕ → ℕ) (t : Sexp) (e : Exp) : Prop :=
  (∀ x ∈ ends t, Break (mem x)) ∧ ∀ mem', (∀ x, ¬ Break (mem x) → mem' x = mem x) →
    (∀ x ∈ ends t, mem' x = 0) → Same mem' e t

/-- The same of every element. -/
def Goods (mem : ℕ → ℕ) (ts : List Sexp) (l : List Exp) : Prop :=
  (∀ x ∈ endss ts, Break (mem x)) ∧ ∀ mem', (∀ x, ¬ Break (mem x) → mem' x = mem x) →
    (∀ x ∈ endss ts, mem' x = 0) → Sames mem' l ts

theorem goods_nil : Goods mem [] [] := ⟨List.forall_mem_nil _, fun _ _ _ => trivial⟩

theorem Good.cons {t : Sexp} {e : Exp} {ts : List Sexp} {l : List Exp} (h : Good mem t e)
    (hs : Goods mem ts l) : Goods mem (t :: ts) (e :: l) := by
  refine ⟨List.forall_mem_append.mpr ⟨h.1, hs.1⟩, fun mem' hkeep hends => ?_⟩
  have hends := List.forall_mem_append.mp hends
  exact ⟨h.2 mem' hkeep hends.1, hs.2 mem' hkeep hends.2⟩

theorem Goods.list {ts : List Sexp} {l : List Exp} (h : Goods mem ts l) (k : Kind) :
    Good mem (.list k ts) (.list k l) :=
  ⟨h.1, fun mem' hkeep hends => ⟨rfl, h.2 mem' hkeep hends⟩⟩

theorem good_atom {w : List ℕ} (hw : AtomOk w) {p : ℕ} (hat : At mem p w)
    (hend : Break (mem (p + w.length))) : Good mem (.atom p (p + w.length)) (.atom w) := by
  refine ⟨fun x hx => ?_, fun mem' hkeep hends => ⟨fun i hi => ?_, ?_⟩⟩
  · rw [List.mem_singleton.mp hx]
    exact hend
  · have hi' := hat i hi
    rw [hkeep _ (by rw [hi']; exact hw.chars _ (List.getElem_mem hi)), hi']
  · exact hends _ (List.mem_singleton.mpr rfl)

/-! ## Expressions -/

/-- An atom before `es` ends at `q`. -/
def AtomEnds (mem : ℕ → ℕ) (es q : ℕ) : Prop :=
  (q = es ∧ Break (mem es)) ∨ isSpace (mem q) = true ∨ isSymbol (mem q) = true

theorem AtomEnds.break {es q : ℕ} (h : AtomEnds mem es q) : Break (mem q) := by
  rcases h with ⟨rfl, h⟩ | h | h
  · exact h
  · exact .inl h
  · exact .inr (.inl h)

/-- `parse` gets the expression `e` where its text `w` stands before `r`, and does not read past its
bound. -/
def Gets (mem : ℕ → ℕ) (r : ℕ) (parse : ℕ → ℕ → Except Stop (Sexp × ℕ)) (reach : ℕ → ℕ → List ℕ)
    (w : List ℕ) (e : Exp) : Prop :=
  ∀ ps p es, skipWs mem ps es = p → At mem p w → p + w.length ≤ r → p + w.length ≤ es →
    (∀ s, e = .atom s → AtomEnds mem es (p + w.length)) →
    ∃ t, parse ps es = .ok (t, p + w.length) ∧ Good mem t e ∧ ∀ x ∈ reach ps es, x ≤ es

theorem body_ne_zero {t : List ℕ} {l : List Exp} (h : Body t l) : ∀ c ∈ t, c ≠ 0 := by
  induction h with
  | nil => exact List.forall_mem_nil _
  | space hc _ ih =>
    refine List.forall_mem_cons.mpr ⟨?_, ih⟩
    rintro rfl
    exact absurd hc (by decide)
  | atom hw _ _ ih =>
    exact List.forall_mem_append.mpr ⟨fun c hc => (hw.not_break hc).2.2, ih⟩
  | list k _ _ hu ht =>
    refine List.forall_mem_append.mpr ⟨?_, List.forall_mem_append.mpr
      ⟨hu, List.forall_mem_cons.mpr ⟨by decide, ht⟩⟩⟩
    cases k <;> decide

theorem ends_of_endsAt {w t : List ℕ} {e : Exp} {p : ℕ} (hend : e.EndsAt t) (ht : ∀ c ∈ t, c ≠ 0)
    (hat : At mem (p + w.length) t) (hstop : Break (mem (p + w.length + t.length))) :
    ∀ s, e = .atom s → AtomEnds mem (p + w.length + t.length) (p + w.length) := by
  rintro s rfl
  cases t with
  | nil => exact .inl ⟨rfl, hstop⟩
  | cons c t =>
    have hc := (at_cons.mp hat).1
    rcases hend c rfl with h | h | h
    · exact .inr (.inl (hc ▸ h))
    · exact .inr (.inr (hc ▸ h))
    · exact absurd h (ht c List.mem_cons_self)

theorem skipWs_gap {g : List ℕ} (hg : ∀ c ∈ g, isSpace c = true) {ps es : ℕ} (hat : At mem ps g)
    (hes : ps + g.length ≤ es) (hstop : ps + g.length = es ∨ isSpace (mem (ps + g.length)) = false) :
    skipWs mem ps es = ps + g.length :=
  skip_at hat hg (by omega) (hstop.imp (fun h => by omega) id)

/-- **The loop gets the elements of a line**, up to the parenthesis at its end. -/
theorem elements_body {r : ℕ} (hb : ∀ i, i + 1 < r → isSpace (mem i) = true → mem (i + 1) ≠ 41)
    {parse : ℕ → ℕ → Except Stop (Sexp × ℕ)} {reach : ℕ → ℕ → List ℕ} {l : List Exp} :
    ∀ {u : List ℕ} {q n : ℕ}, Body u l → l.length ≤ n → (∀ e ∈ l, e.Ok) →
      (∀ w e, w.length ≤ u.length → Text w e → e.Ok → Gets mem r parse reach w e) → At mem q u →
      q + u.length < r → mem (q + u.length) = 41 →
      ∃ ts, elements parse (q + u.length) n q = .ok (ts, q + u.length) ∧ Goods mem ts l ∧
        ∀ x ∈ reachElements parse reach (q + u.length) n q, x ≤ q + u.length + 1 := by
  induction l with
  | nil =>
    intro u q n hbody _ _ _ hat hr hclose
    have hsp := body_nil hbody
    rcases List.eq_nil_or_concat' u with rfl | ⟨v, c, rfl⟩
    · refine ⟨[], ?_, goods_nil, ?_⟩
      · cases n <;> simp [elements]
      · cases n <;> simp [reachElements]
    · -- a blank in front of the parenthesis
      obtain ⟨-, hc⟩ := at_append.mp hat
      have hc := (at_cons.mp hc).1
      rw [List.length_append, List.length_singleton, ← Nat.add_assoc] at hclose hr
      exact absurd hclose (hb _ hr (by rw [hc]; exact hsp c (by simp)))
  | cons e l ih =>
    intro u q n hbody hn hok hget hat hr hclose
    obtain ⟨n, rfl⟩ : ∃ m, n = m + 1 := ⟨n - 1, by simp only [List.length_cons] at hn; omega⟩
    obtain ⟨g, w, t, rfl, hg, hw, hend, hrest⟩ := body_head hbody
    obtain ⟨hatg, hatw⟩ := at_append.mp hat
    obtain ⟨hatw, hatt⟩ := at_append.mp hatw
    obtain ⟨c, v, hcv, hcsp, -⟩ := hw.cons
    have hpos : 0 < w.length := by rw [hcv]; exact Nat.succ_pos _
    have hlen : q + (g ++ (w ++ t)).length = q + g.length + w.length + t.length := by
      simp only [List.length_append]; omega
    have hle : w.length ≤ (g ++ (w ++ t)).length := by simp only [List.length_append]; omega
    have hlet : t.length ≤ (g ++ (w ++ t)).length := by simp only [List.length_append]; omega
    rw [hlen] at hclose hr ⊢
    have hskip : skipWs mem q (q + g.length + w.length + t.length) = q + g.length := by
      refine skipWs_gap hg hatg (by omega) (.inr ?_)
      rw [hcv] at hatw
      rw [(at_cons.mp hatw).1, hcsp]
    obtain ⟨s, he, hs, hrs⟩ := hget w e hle hw (hok e List.mem_cons_self) q _ _ hskip hatw
      (by omega) (by omega) (ends_of_endsAt hend (body_ne_zero hrest) hatt (.inr (.inl (by rw [hclose]; rfl))))
    obtain ⟨ts, hes, hts, hrs'⟩ := ih hrest (Nat.le_of_succ_le_succ hn)
      (fun f hf => hok f (List.mem_cons_of_mem e hf))
      (fun w' e' hw' => hget w' e' (hw'.trans hlet)) hatt hr hclose
    have hlt : q < q + g.length + w.length + t.length := by omega
    refine ⟨s :: ts, ?_, hs.cons hts, ?_⟩
    · rw [elements, if_pos hlt, he]
      simp only [bind, Except.bind, hes, pure, Except.pure]
    · rw [reachElements, if_pos hlt, he]
      exact List.forall_mem_append.mpr ⟨fun x hx => (hrs x hx).trans (Nat.le_succ _), hrs'⟩

theorem parseatom_text {w : List ℕ} (hw : AtomOk w) {p es : ℕ} (hat : At mem p w)
    (hes : p + w.length ≤ es) (hend : AtomEnds mem es (p + w.length)) :
    parseatom mem p es = (.atom p (p + w.length), p + w.length) := by
  have hskip : skip mem (fun c => !isSpace c && !isSymbol c) (es - p) p = p + w.length := by
    refine skip_at hat (fun d hd => ?_) (by omega) ?_
    · obtain ⟨h1, h2, -⟩ := hw.not_break hd
      simp [h1, h2]
    · rcases hend with ⟨h, -⟩ | h | h
      · exact .inl (by omega)
      · exact .inr (by simp [h])
      · exact .inr (by simp [h])
  rw [parseatom, hskip]

theorem parsesexp_atom (fuel : ℕ) {ps p es : ℕ} (hws : skipWs mem ps es = p) (h0 : mem p ≠ 0)
    (h40 : mem p ≠ 40) (h39 : mem p ≠ 39) :
    parsesexp mem (fuel + 1) ps es = .ok (parseatom mem p es) ∧
      reach mem (fuel + 1) ps es = [p, (parseatom mem p es).2] := by
  rw [parsesexp, reach, hws]
  constructor
  · split <;> first | contradiction | rfl
  · split <;> first | contradiction | rfl

theorem at_opening (k : Kind) {p : ℕ} {v : List ℕ} :
    At mem p (opening k ++ v) → mem p = match k with | .APPLY => 40 | .LIST => 39 := by
  intro h
  cases k <;> exact (at_cons.mp h).1

theorem reach_list {fuel ps p es : ℕ} {k : Kind} (hws : skipWs mem ps es = p)
    (hp : mem p = match k with | .APPLY => 40 | .LIST => 39) :
    reach mem (fuel + 1) ps es = p :: reachList mem (parsesexp mem fuel) (reach mem fuel)
      (p + (opening k).length) es := by
  rw [reach, hws]
  cases k <;> simp only [hp, opening, List.length_cons, List.length_nil]

theorem gets_atom {w : List ℕ} (hw : AtomOk w) (r fuel : ℕ) :
    Gets mem r (parsesexp mem (fuel + 1)) (reach mem (fuel + 1)) w (.atom w) := by
  intro ps p es hws hat _ hes hend
  obtain ⟨c, v, hcv⟩ := List.exists_cons_of_ne_nil hw.ne_nil
  obtain ⟨-, hsym, h0⟩ := hw.not_break (c := c) (by rw [hcv]; exact List.mem_cons_self)
  have hc : mem p = c := by
    rw [hcv] at hat
    exact (at_cons.mp hat).1
  have h40 : c ≠ 40 := fun e => by simp [isSymbol, e] at hsym
  have h39 : c ≠ 39 := fun e => hw.quote (by simp [hcv, e])
  have hatom := parseatom_text hw hat hes (hend w rfl)
  obtain ⟨hp, hr⟩ := parsesexp_atom fuel hws (hc ▸ h0) (hc ▸ h40) (hc ▸ h39)
  refine ⟨.atom p (p + w.length), by rw [hp, hatom], good_atom hw hat (hend w rfl).break, ?_⟩
  rw [hr, hatom]
  exact List.forall_mem_cons.mpr ⟨by omega, List.forall_mem_singleton.mpr hes⟩

theorem matching_text {u : List ℕ} {m : List Exp} (hu : Body u m) {k : Kind} {p es : ℕ}
    (hat : At mem p (opening k ++ (u ++ [41]))) (hes : p + (opening k).length + u.length < es) :
    matching mem (es - (p + (opening k).length)) 1 (p + (opening k).length) =
      p + (opening k).length + u.length := by
  have hk : es - (p + (opening k).length) =
      u.length + (es - (p + (opening k).length + u.length + 1) + 1) := by omega
  rw [hk, matching_close (skips_body hu) (at_append.mp hat).2 _ 0, if_pos rfl]

/-- **The parser gets an expression of the grammar**, with more fuel than it has bytes. -/
theorem gets_text {r : ℕ} (hb : ∀ i, i + 1 < r → isSpace (mem i) = true → mem (i + 1) ≠ 41) :
    ∀ fuel w e, w.length < fuel → Text w e → e.Ok →
      Gets mem r (parsesexp mem fuel) (reach mem fuel) w e := by
  intro fuel
  induction fuel with
  | zero => exact fun w e h => absurd h (Nat.not_lt_zero _)
  | succ fuel ih =>
    intro w e hf hw hok
    cases hw with
    | atom hw => exact gets_atom hw r fuel
    | @list u m k hu =>
      intro ps p es hws hat hle hes hend
      obtain ⟨-, hbody⟩ := at_append.mp hat
      obtain ⟨hatu, hclose⟩ := at_append.mp hbody
      have hclose := (at_cons.mp hclose).1
      have hlen : (opening k ++ (u ++ [41])).length = (opening k).length + u.length + 1 := by
        simp only [List.length_append, List.length_singleton, Nat.add_assoc]
      have hkpos : 0 < (opening k).length := by cases k <;> decide
      have hp := at_opening k hat
      cases hok with
      | list hm hok =>
        have hlt : p + (opening k).length + u.length < es := by omega
        have hres := matching_text hu hat hlt
        have hne : p + (opening k).length + u.length ≠ es := by omega
        obtain ⟨ts, hel, hts, hr⟩ := elements_body hb hu hm hok
          (fun w' e' hw' => ih w' e' (by omega)) hatu (by omega) hclose
        have hl : parselist mem (parsesexp mem fuel) (p + (opening k).length) es =
            .ok (ts, p + (opening k).length + u.length) := by
          rw [parselist, hres, if_neg hne, hel]
        refine ⟨.list k ts, ?_, hts.list k, ?_⟩
        · rw [parsesexp_list hws hp hl, hlen]
          congr 2
          omega
        · rw [reach_list hws hp, reachList, hres, if_neg hne]
          refine List.forall_mem_cons.mpr ⟨by omega, List.forall_mem_cons.mpr ⟨by omega,
            List.forall_mem_cons.mpr ⟨by omega, fun x hx => ?_⟩⟩⟩
          have := hr x hx
          omega

theorem parsesexp_open (fuel : ℕ) {ps p es : ℕ} {k : Kind} (hws : skipWs mem ps es = p)
    (hp : mem p = match k with | .APPLY => 40 | .LIST => 39)
    (hres : matching mem (es - (p + (opening k).length)) 1 (p + (opening k).length) = es) :
    parsesexp mem (fuel + 1) ps es = .error (.syntaxError (p + (opening k).length)) ∧
      reach mem (fuel + 1) ps es = [p, p + (opening k).length, es] := by
  have hl : parselist mem (parsesexp mem fuel) (p + (opening k).length) es =
      .error (.syntaxError (p + (opening k).length)) := by rw [parselist, hres, if_pos rfl]
  refine ⟨?_, by rw [reach_list hws hp, reachList, hres, if_pos rfl]⟩
  rw [parsesexp, hws]
  cases k with
  | APPLY =>
    have hl : parselist mem (parsesexp mem fuel) (p + 1) es = .error (.syntaxError (p + 1)) := hl
    simp only [hp, hl, bind, Except.bind]
    rfl
  | LIST =>
    have hl : parselist mem (parsesexp mem fuel) (p + 2) es = .error (.syntaxError (p + 2)) := hl
    simp only [hp, hl, bind, Except.bind]
    rfl

/-! ## Lines -/

end Gets

/-- The place of the first expression. -/
def first (s : List ℕ) : ℕ := skipWs (bytesOf s) 0 s.length

/-- At `p` a list is opened, and by the parentheses that follow it is closed at `r`. -/
structure Closes (s : List ℕ) (p : ℕ) (k : Kind) (r : ℕ) : Prop where
  opens : At (bytesOf s) p (opening k)
  closes : matching (bytesOf s) (s.length - (p + (opening k).length)) 1 (p + (opening k).length) = r
  lt : r < s.length

/-- What the parser relies on up to `r`: no blank stands directly before a closing parenthesis, a
quote in front of an expression has its parenthesis directly after it, and no part is a list with
more than `MAXARGS` elements. -/
structure CleanTo (s : List ℕ) (r : ℕ) : Prop where
  blank : ∀ i, i + 1 < r + 1 → isSpace (bytesOf s i) = true → bytesOf s (i + 1) ≠ 41
  quote : ∀ i, i + 1 < r → isSpace (bytesOf s i) = true ∨ isSymbol (bytesOf s i) = true →
    bytesOf s (i + 1) = 39 → bytesOf s (i + 2) = 40
  lists : ∀ w l, w <:+: s.take (r + 1) → Body w l → ∀ e ∈ l, e.Ok

/-- A quote in front of the first expression has its parenthesis after it, and if the expression is
a list that is closed, it is clean. -/
structure Clean (s : List ℕ) : Prop where
  quote : bytesOf s (first s) = 39 → bytesOf s (first s + 1) = 40
  inside : ∀ k r, Closes s (first s) k r → CleanTo s r

/-- The tree reads as the line: as its expression, or it is the null pointer. -/
def SameLine (mem : ℕ → ℕ) (t : Sexp) : List Exp → Prop
  | [] => t = .null
  | e :: _ => Same mem e t

/-- The parser does what the grammar says of `s`: it accepts the lines of the grammar, with their
trees, it comes to an end, and it does not read past the end of the string. -/
structure Exact (s : List ℕ) : Prop where
  accepts : (∃ r, parseexp s = .ok r) ↔ ∃ l, Line s l
  tree : ∀ l, Line s l → ∃ t mem, parseexp s = .ok (t, mem) ∧ SameLine mem t l
  total : parseexp s ≠ .error .fuel
  within : ∀ x ∈ reach (bytesOf s) (strlen s + 1) 0 (strlen s), x ≤ strlen s

section Exact

variable {s : List ℕ}

theorem at_infix {w : List ℕ} {p : ℕ} (h : At (bytesOf s) p w) (hle : p + w.length ≤ s.length) :
    w <:+: s := by
  have hsplit : s.take p ++ ((s.drop p).take w.length ++ (s.drop p).drop w.length) = s := by
    rw [List.take_append_drop, List.take_append_drop]
  have hat := at_bytesOf s
  rw [← hsplit] at hat
  have hpart := (at_append.mp (at_append.mp hat).2).1
  rw [hsplit, List.length_take_of_le (by omega), Nat.zero_add] at hpart
  have hlen : ((s.drop p).take w.length).length = w.length := by
    rw [List.length_take, List.length_drop]
    omega
  have hw : (s.drop p).take w.length = w := by
    rw [eq_span hpart, hlen, ← eq_span h]
  rw [hw] at hsplit
  exact ⟨_, _, (List.append_assoc _ _ _).trans hsplit⟩

theorem at_infix_take {w : List ℕ} {p n : ℕ} (h : At (bytesOf s) p w) (hle : p + w.length ≤ n)
    (hn : n ≤ s.length) : w <:+: s.take n := by
  refine at_infix (p := p) (fun i hi => ?_) (by rw [List.length_take]; omega)
  have hi' := h i hi
  have hlt : p + i < n := by omega
  rw [← hi']
  simp [bytesOf, hlt]

theorem eq_of_at {w : List ℕ} (h : At (bytesOf s) 0 w) (hlen : w.length = s.length) : s = w := by
  rw [eq_span h, hlen]
  exact eq_span (at_bytesOf s)

theorem bytesOf_ne_zero (hs : ∀ c ∈ s, c ≠ 0) {i : ℕ} (hi : i < s.length) : bytesOf s i ≠ 0 := by
  have := at_bytesOf s i hi
  rw [Nat.zero_add] at this
  rw [this]
  exact hs _ (List.getElem_mem hi)

theorem bytesOf_length (s : List ℕ) : bytesOf s s.length = 0 := by
  simp [bytesOf]

theorem skip_span (m : ℕ → ℕ) (f : ℕ → Bool) : ∀ k p, ∃ g, (∀ c ∈ g, f c = true) ∧ At m p g ∧
    skip m f k p = p + g.length ∧ g.length ≤ k := by
  intro k
  induction k with
  | zero => exact fun p => ⟨[], List.forall_mem_nil _, at_nil p, rfl, le_refl 0⟩
  | succ k ih =>
    intro p
    by_cases h : f (m p) = true
    · obtain ⟨g, hg, hat, hskip, hle⟩ := ih (p + 1)
      refine ⟨m p :: g, List.forall_mem_cons.mpr ⟨h, hg⟩, at_cons.mpr ⟨rfl, hat⟩, ?_,
        Nat.succ_le_succ hle⟩
      rw [skip, if_pos h, hskip, List.length_cons]
      omega
    · refine ⟨[], List.forall_mem_nil _, at_nil p, ?_, Nat.zero_le _⟩
      rw [skip, if_neg h]
      rfl

/-- An expression of the grammar stands at `p`. -/
def HasText (s : List ℕ) (p : ℕ) : Prop :=
  ∃ w e, Text w e ∧ e.Ok ∧ At (bytesOf s) p w ∧ p + w.length ≤ s.length ∧
    ∀ v, e = .atom v → AtomEnds (bytesOf s) s.length (p + w.length)

/-- A byte that is no parenthesis, quote or blank starts an atom. -/
theorem hasText_atom (hs : ∀ c ∈ s, c ≠ 0) {p : ℕ} (hp : p < s.length)
    (hsp : isSpace (bytesOf s p) = false) (hsym : isSymbol (bytesOf s p) = false)
    (h39 : bytesOf s p ≠ 39) : HasText s p := by
  have hnb : ¬ Break (bytesOf s p) := by
    rintro (h | h | h)
    · simp [hsp] at h
    · simp [hsym] at h
    · exact bytesOf_ne_zero hs hp h
  obtain ⟨a, ha, hw, hend⟩ : ∃ a ≤ s.length - p, (∀ c ∈ span (bytesOf s) p a, ¬ Break c) ∧
      (a = s.length - p ∨ Break (bytesOf s (p + a))) := exists_run _ p
  obtain ⟨a, rfl⟩ : ∃ j, a = j + 1 := by
    cases a with
    | zero => exact absurd (hend.resolve_left (by omega)) hnb
    | succ a => exact ⟨a, rfl⟩
  have hatom : AtomOk (span (bytesOf s) p (a + 1)) :=
    ⟨List.cons_ne_nil _ _, hw, fun he => h39 (Option.some.inj he)⟩
  refine ⟨_, _, .atom hatom, .atom hatom, at_span _ _, ?_, fun v _ => ?_⟩
  · rw [length_span]
    omega
  · rw [length_span]
    by_cases hN : p + (a + 1) = s.length
    · exact .inl ⟨hN, .inr (.inr (bytesOf_length s))⟩
    · rcases hend.resolve_left (by omega) with h | h | h
      · exact .inr (.inl h)
      · exact .inr (.inr h)
      · exact absurd h (bytesOf_ne_zero hs (by omega))

/-- At an opening there is a list of the grammar, or the scan finds no parenthesis. -/
theorem hasText_list (hs : ∀ c ∈ s, c ≠ 0) {p : ℕ} {k : Kind}
    (hc : ∀ r, Closes s p k r → CleanTo s r) (hat : At (bytesOf s) p (opening k)) (hp : p + (opening k).length ≤ s.length) :
    HasText s p ∨ matching (bytesOf s) (s.length - (p + (opening k).length)) 1
      (p + (opening k).length) = s.length := by
  have hle : p + (opening k).length ≤ matching (bytesOf s) (s.length - (p + (opening k).length)) 1
      (p + (opening k).length) ∧ matching (bytesOf s) (s.length - (p + (opening k).length)) 1
      (p + (opening k).length) ≤ p + (opening k).length + (s.length - (p + (opening k).length)) :=
    le_matching _ 1 _
  rcases Nat.lt_or_ge (matching (bytesOf s) (s.length - (p + (opening k).length)) 1
    (p + (opening k).length)) s.length with hlt | hge
  · left
    obtain ⟨n, hn⟩ : ∃ n, matching (bytesOf s) (s.length - (p + (opening k).length)) 1
        (p + (opening k).length) = p + (opening k).length + n := Nat.exists_eq_add_of_le hle.1
    have hclose := matching_found _ 1 _ (by omega : matching (bytesOf s)
      (s.length - (p + (opening k).length)) 1 (p + (opening k).length) <
        p + (opening k).length + (s.length - (p + (opening k).length)))
    rw [hn] at hclose hlt
    have hc := hc _ ⟨hat, hn, hlt⟩
    -- the byte before the interior is the parenthesis
    have hopen : bytesOf s (p + (opening k).length - 1) = 40 := by
      cases k with
      | APPLY => exact (at_cons.mp hat).1
      | LIST => exact (at_cons.mp (at_cons.mp hat).2).1
    have hpos : 0 < (opening k).length := by cases k <;> decide
    have hquote : bytesOf s (p + (opening k).length) = 39 →
        bytesOf s (p + (opening k).length + 1) = 40 := by
      by_cases hzero : n = 0
      · exact fun he => absurd he (matching_self (by rw [hn, hzero, Nat.add_zero]) (by omega))
      · have := hc.quote (p + (opening k).length - 1) (by omega) (.inr (by rw [hopen]; rfl))
        rwa [show p + (opening k).length - 1 + 1 = p + (opening k).length by omega,
          show p + (opening k).length - 1 + 2 = p + (opening k).length + 1 by omega] at this
    obtain ⟨m, hm⟩ := body_of_matching (N := s.length) (fun x hx => bytesOf_ne_zero hs hx) hc.quote
      n (k := s.length - (p + (opening k).length)) (by omega) (le_refl _) hquote hn (by omega)
    have hw : At (bytesOf s) p (opening k ++ (span (bytesOf s) (p + (opening k).length) n ++ [41])) := by
      refine at_append.mpr ⟨hat, at_append.mpr ⟨at_span _ _, at_cons.mpr ⟨?_, at_nil _⟩⟩⟩
      rw [length_span]
      exact hclose
    have hlen : (opening k ++ (span (bytesOf s) (p + (opening k).length) n ++ [41])).length =
        (opening k).length + n + 1 := by
      simp only [List.length_append, length_span, List.length_singleton, Nat.add_assoc]
    have hin : p + (opening k ++ (span (bytesOf s) (p + (opening k).length) n ++ [41])).length ≤
        s.length := by omega
    have hok := hc.lists _ _ (at_infix_take hw (by omega) (by omega)) (.list k hm .nil) _
      List.mem_cons_self
    exact ⟨_, _, .list k hm, hok, hw, hin, fun v hv => Exp.noConfusion hv⟩
  · right
    omega

theorem parseexp_of_error (hs : ∀ c ∈ s, c ≠ 0) {q : ℕ}
    (h : parsesexp (bytesOf s) (s.length + 1) 0 s.length = .error (.syntaxError q)) :
    parseexp s = .error (.syntaxError q) := by
  simp only [parseexp, strlen_of_ne_zero hs, h, bind, Except.bind]

theorem parseexp_of_ok (hs : ∀ c ∈ s, c ≠ 0) {t : Sexp} {q : ℕ}
    (h : parsesexp (bytesOf s) (s.length + 1) 0 s.length = .ok (t, q)) :
    parseexp s = if skipWs (bytesOf s) q s.length = s.length
      then .ok (t, snulterminate t (bytesOf s))
      else .error (.syntaxError (skipWs (bytesOf s) q s.length)) := by
  simp only [parseexp, strlen_of_ne_zero hs, h, bind, Except.bind, pure, Except.pure]

theorem gets_first (hc : Clean s) {w : List ℕ} {e : Exp} (hw : Text w e) (hok : e.Ok)
    (hat : At (bytesOf s) (first s) w) (hin : first s + w.length ≤ s.length)
    (hends : ∀ v, e = .atom v → AtomEnds (bytesOf s) s.length (first s + w.length)) :
    ∃ t, parsesexp (bytesOf s) (s.length + 1) 0 s.length = .ok (t, first s + w.length) ∧
      Good (bytesOf s) t e ∧ ∀ x ∈ reach (bytesOf s) (s.length + 1) 0 s.length, x ≤ s.length := by
  cases hw with
  | atom hw => exact gets_atom hw s.length s.length 0 _ _ rfl hat hin hin hends
  | @list u m k hu =>
    have hlen : (opening k ++ (u ++ [41])).length = (opening k).length + u.length + 1 := by
      simp only [List.length_append, List.length_singleton, Nat.add_assoc]
    have hlt : first s + (opening k).length + u.length < s.length := by omega
    have hclose := matching_text hu hat hlt
    have hclean := hc.inside k _ ⟨(at_append.mp hat).1, hclose, hlt⟩
    exact gets_text hclean.blank (s.length + 1) _ _ (by omega) (.list k hu) hok 0 _ _ rfl hat
      (by omega) hin hends

/-- **Every line of the grammar is accepted**, with its tree. -/
theorem parseexp_line (hs : ∀ c ∈ s, c ≠ 0) (hc : Clean s) {l : List Exp} (hl : Line s l) :
    (∃ t mem, parseexp s = .ok (t, mem) ∧ SameLine mem t l) ∧
      ∀ x ∈ reach (bytesOf s) (s.length + 1) 0 s.length, x ≤ s.length := by
  obtain ⟨hbody, hone, hok⟩ := hl
  have hat := at_bytesOf s
  have hnul := bytesOf_length s
  cases l with
  | nil =>
    have hskip : skipWs (bytesOf s) 0 s.length = s.length := by
      have := skipWs_gap (body_nil hbody) hat (Nat.zero_add s.length).le (.inl (Nat.zero_add _))
      rwa [Nat.zero_add] at this
    have hstop : skipWs (bytesOf s) s.length s.length = s.length :=
      skip_stop (by rw [hnul]; rfl) _
    have hp : parsesexp (bytesOf s) (s.length + 1) 0 s.length = .ok (.null, s.length) := by
      rw [parsesexp, hskip]
      simp only [hnul]
    refine ⟨⟨.null, snulterminate .null (bytesOf s), ?_, rfl⟩, ?_⟩
    · rw [parseexp_of_ok hs hp, if_pos hstop]
    · rw [reach, hskip]
      simp only [hnul]
      exact List.forall_mem_singleton.mpr (le_refl _)
  | cons e l =>
    obtain rfl : l = [] := List.eq_nil_of_length_eq_zero (by
      simp only [List.length_cons] at hone
      omega)
    obtain ⟨g, w, t, hsplit, hg, hw, hend, ht⟩ := body_head hbody
    have hlen : s.length = 0 + g.length + w.length + t.length := by
      rw [hsplit]
      simp only [List.length_append]
      omega
    have hat' : At (bytesOf s) 0 (g ++ (w ++ t)) := hsplit ▸ hat
    obtain ⟨hatg, hatw⟩ := at_append.mp hat'
    obtain ⟨hatw, hatt⟩ := at_append.mp hatw
    have hskip : first s = 0 + g.length := by
      refine skipWs_gap hg hatg (by omega) (.inr ?_)
      obtain ⟨c, v, rfl, hc, -⟩ := hw.cons
      rw [(at_cons.mp hatw).1, hc]
    have hbreak : Break (bytesOf s (0 + g.length + w.length + t.length)) := by
      rw [← hlen, hnul]
      exact .inr (.inr rfl)
    have hends := ends_of_endsAt hend (body_ne_zero ht) hatt hbreak
    rw [← hlen, ← hskip] at hends
    obtain ⟨a, ha, hgood, hr⟩ := gets_first hc hw (hok e List.mem_cons_self) (by rwa [hskip])
      (by omega) hends
    have hrest : skipWs (bytesOf s) (first s + w.length) s.length = s.length := by
      rw [← hskip] at hatt hlen
      have := skipWs_gap (body_nil ht) hatt hlen.ge (.inl hlen.symm)
      rwa [← hlen] at this
    refine ⟨⟨a, snulterminate a (bytesOf s), ?_, ?_⟩, hr⟩
    · rw [parseexp_of_ok hs ha, if_pos hrest]
    refine hgood.2 _ (fun x hx => ?_) fun x hx => ?_
    · rw [snulterminate_apply, if_neg fun hmem => hx (hgood.1 x hmem)]
    · rw [snulterminate_apply, if_pos hx]

/-- **What is not a line of the grammar is rejected.** -/
theorem line_or_reject (hs : ∀ c ∈ s, c ≠ 0) (hc : Clean s) :
    (∃ l, Line s l) ∨ (∃ q, parseexp s = .error (.syntaxError q)) ∧
      ∀ x ∈ reach (bytesOf s) (s.length + 1) 0 s.length, x ≤ s.length := by
  obtain ⟨g, hg, hat, hskip, hle⟩ := skip_span (bytesOf s) isSpace (s.length - 0) 0
  have hws : skipWs (bytesOf s) 0 s.length = g.length := by
    rw [skipWs, hskip, Nat.zero_add]
  have hfirst : first s = g.length := hws
  rcases Nat.lt_or_ge g.length s.length with hlt | hge
  swap
  · -- a blank line
    have hsg : s = g := eq_of_at hat (by omega)
    rw [← hsg] at hg
    exact .inl ⟨[], body_spaces hg, Nat.zero_le _, List.forall_mem_nil _⟩
  have hsp : isSpace (bytesOf s g.length) = false := by
    have hend : skipWs (bytesOf s) 0 s.length = 0 + (s.length - 0) ∨
        isSpace (bytesOf s (skipWs (bytesOf s) 0 s.length)) = false := skip_end isSpace _ 0
    rw [hws] at hend
    exact hend.resolve_left (by omega)
  have hstay : skipWs (bytesOf s) g.length s.length = g.length := skip_stop hsp _
  -- an expression of the grammar, and what comes after it
  have done : HasText s g.length → (∃ l, Line s l) ∨ (∃ q, parseexp s = .error (.syntaxError q)) ∧
      ∀ x ∈ reach (bytesOf s) (s.length + 1) 0 s.length, x ≤ s.length := by
    rintro ⟨w, e, hw, hok, hatw, hin, hends⟩
    rw [← hfirst] at hatw hin hends
    obtain ⟨t, hp, -, hr⟩ := gets_first hc hw hok hatw hin hends
    rw [hfirst] at hatw hin hp
    obtain ⟨v, hv, hatv, hskipv, hlev⟩ := skip_span (bytesOf s) isSpace
      (s.length - (g.length + w.length)) (g.length + w.length)
    have hrest : skipWs (bytesOf s) (g.length + w.length) s.length =
      g.length + w.length + v.length := hskipv
    have hparse := parseexp_of_ok hs hp
    rw [hrest] at hparse
    by_cases hall : g.length + w.length + v.length = s.length
    · have hsplit : s = g ++ (w ++ v) := by
        refine eq_of_at (at_append.mpr ⟨hat, at_append.mpr ⟨?_, ?_⟩⟩) ?_
        · rwa [Nat.zero_add]
        · rwa [Nat.zero_add]
        · simp only [List.length_append]
          omega
      have hend : e.EndsAt v := by
        cases e with
        | atom _ => exact fun c hc => .inl (hv c (List.mem_of_mem_head? hc))
        | list _ _ => trivial
      have hbody : Body (g ++ (w ++ v)) [e] := body_gap hg (hw.body hend (body_spaces hv))
      rw [← hsplit] at hbody
      exact .inl ⟨[e], hbody, le_refl 1, List.forall_mem_singleton.mpr hok⟩
    · rw [if_neg hall] at hparse
      exact .inr ⟨⟨_, hparse⟩, hr⟩
  -- a list, or one that is not closed
  have list : ∀ k, At (bytesOf s) g.length (opening k) → g.length + (opening k).length ≤ s.length →
      (∃ l, Line s l) ∨ (∃ q, parseexp s = .error (.syntaxError q)) ∧
        ∀ x ∈ reach (bytesOf s) (s.length + 1) 0 s.length, x ≤ s.length := by
    intro k hatk hk
    have hclean : ∀ r, Closes s g.length k r → CleanTo s r := fun r hr =>
      hc.inside k r (by rwa [hfirst])
    rcases hasText_list hs hclean hatk hk with h | h
    · exact done h
    · have hp := at_opening k (v := []) (by rwa [List.append_nil])
      obtain ⟨he, hr⟩ := parsesexp_open s.length hws hp h
      refine .inr ⟨⟨_, parseexp_of_error hs he⟩, ?_⟩
      rw [hr]
      exact List.forall_mem_cons.mpr ⟨by omega, List.forall_mem_cons.mpr ⟨hk,
        List.forall_mem_singleton.mpr (le_refl _)⟩⟩
  by_cases h40 : bytesOf s g.length = 40
  · exact list .APPLY (at_cons.mpr ⟨h40, at_nil _⟩) hlt
  by_cases h39 : bytesOf s g.length = 39
  · have hquote : bytesOf s (g.length + 1) = 40 := by
      have := hc.quote
      rw [hfirst] at this
      exact this h39
    refine list .LIST (at_cons.mpr ⟨h39, at_cons.mpr ⟨hquote, at_nil _⟩⟩) ?_
    have hlen : (opening .LIST).length = 2 := rfl
    by_contra hno
    have hlast : g.length + 1 = s.length := by omega
    rw [hlast, bytesOf_length] at hquote
    exact absurd hquote (by decide)
  by_cases h41 : bytesOf s g.length = 41
  · -- a closing parenthesis: an atom without bytes, and the rest is left over
    have hatom : parseatom (bytesOf s) g.length s.length = (.atom g.length g.length, g.length) := by
      have hstop : skip (bytesOf s) (fun c => !isSpace c && !isSymbol c) (s.length - g.length)
          g.length = g.length := skip_stop (by rw [h41]; rfl) _
      rw [parseatom, hstop]
    obtain ⟨hp, hr⟩ := parsesexp_atom s.length hws (by rw [h41]; decide) h40 h39
    rw [hatom] at hp hr
    refine .inr ⟨⟨g.length, ?_⟩, ?_⟩
    · rw [parseexp_of_ok hs hp, hstay, if_neg (by omega)]
    · rw [hr]
      exact List.forall_mem_cons.mpr ⟨hlt.le, List.forall_mem_singleton.mpr hlt.le⟩
  · refine done (hasText_atom hs hlt hsp ?_ h39)
    simp [isSymbol, h40, h41]

end Exact

/-- **On a clean line the parser accepts exactly its grammar.** -/
theorem parseexp_exact (s : List ℕ) (hs : ∀ c ∈ s, c ≠ 0) (hc : Clean s) : Exact s := by
  have hlen := strlen_of_ne_zero hs
  refine ⟨⟨?_, ?_⟩, fun l hl => (parseexp_line hs hc hl).1, ?_, ?_⟩
  · rintro ⟨r, hr⟩
    rcases line_or_reject hs hc with h | ⟨⟨q, hq⟩, -⟩
    · exact h
    · rw [hq] at hr
      cases hr
  · rintro ⟨l, hl⟩
    obtain ⟨⟨t, mem, h, -⟩, -⟩ := parseexp_line hs hc hl
    exact ⟨_, h⟩
  · intro hfuel
    rcases line_or_reject hs hc with ⟨l, hl⟩ | ⟨⟨q, hq⟩, -⟩
    · obtain ⟨⟨t, mem, h, -⟩, -⟩ := parseexp_line hs hc hl
      rw [h] at hfuel
      cases hfuel
    · rw [hq] at hfuel
      cases hfuel
  · rw [hlen]
    rcases line_or_reject hs hc with ⟨l, hl⟩ | ⟨-, h⟩
    · exact (parseexp_line hs hc hl).2
    · exact h

/-! ## Clean lines and others -/

theorem length_body {t : List ℕ} {l : List Exp} (h : Body t l) : l.length ≤ t.length := by
  induction h with
  | nil => exact le_refl 0
  | space _ _ ih => exact ih.trans (Nat.le_succ _)
  | @atom w t l hw _ _ ih =>
    have := List.length_pos_iff.mpr hw.ne_nil
    rw [List.length_append, List.length_cons]
    omega
  | list k _ _ _ ih =>
    simp only [List.length_append, List.length_cons]
    omega

theorem body_ok {t : List ℕ} {l : List Exp} (h : Body t l) (hlen : t.length ≤ MAXARGS) :
    ∀ e ∈ l, e.Ok := by
  induction h with
  | nil => exact List.forall_mem_nil _
  | space _ _ ih => exact ih (Nat.le_of_succ_le hlen)
  | atom hw _ _ ih =>
    rw [List.length_append] at hlen
    exact List.forall_mem_cons.mpr ⟨.atom hw, ih (by omega)⟩
  | list k hu _ ihu iht =>
    simp only [List.length_append, List.length_cons] at hlen
    have := length_body hu
    exact List.forall_mem_cons.mpr ⟨.list (by omega) (ihu (by omega)), iht (by omega)⟩

theorem bytesOf_mem (s : List ℕ) (i : ℕ) : bytesOf s i = 0 ∨ bytesOf s i ∈ s := by
  rcases Nat.lt_or_ge i s.length with h | h
  · right
    have := at_bytesOf s i h
    rw [Nat.zero_add] at this
    rw [this]
    exact List.getElem_mem h
  · exact .inl (by simp [bytesOf, h])

theorem clean_of_short {s : List ℕ} (hlen : s.length ≤ MAXARGS)
    (hsp : ∀ c ∈ s, isSpace c = false) (h39 : 39 ∉ s) : Clean s := by
  have hno : ∀ i, bytesOf s i ≠ 39 := fun i h => by
    rcases bytesOf_mem s i with h' | h'
    · rw [h'] at h
      exact absurd h (by decide)
    · exact h39 (h ▸ h')
  refine ⟨fun h => absurd h (hno _), fun k r _ => ⟨fun i _ h => ?_,
    fun i _ _ h => absurd h (hno (i + 1)), fun w l hw hl => body_ok hl ?_⟩⟩
  swap
  · have := hw.length_le
    rw [List.length_take] at this
    omega
  rcases bytesOf_mem s i with h' | h'
  · rw [h'] at h
    exact absurd h (by decide)
  · rw [hsp _ h'] at h
    exact absurd h (by decide)

/-- `(a)`. -/
theorem parseexp_exact_list : Exact [40, 97, 41] :=
  parseexp_exact [40, 97, 41] (by decide) (clean_of_short (by decide) (by decide) (by decide))

/-- `( )` gets an atom without bytes as its element. -/
theorem not_parseexp_exact : ¬ ∀ s : List ℕ, (∀ c ∈ s, c ≠ 0) → Exact s := by
  intro h
  have hline : Line [40, 32, 41] [.list .APPLY []] :=
    ⟨.list .APPLY (.space rfl .nil) .nil, le_refl 1,
      List.forall_mem_singleton.mpr (.list (Nat.zero_le _) (List.forall_mem_nil _))⟩
  obtain ⟨t, mem, ht, hsame⟩ := (h [40, 32, 41] (by decide)).tree _ hline
  obtain ⟨rfl, -⟩ : Sexp.list .APPLY [.atom 2 2] = t ∧ _ := Prod.mk.inj (Except.ok.inj ht)
  exact hsame.2

end Scsh

end OsPlayground
