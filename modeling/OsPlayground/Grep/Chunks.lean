import OsPlayground.Grep.Match
import OsPlayground.Scsh.Print

/-!
# `grep` on input that comes in pieces

* `strchr`, `memmove`, `lineLoop`, `grepChunk`, `grep`: as the code does it. Each call of `read` takes
  one chunk.
* `stream`, `accepted`: lines with their newlines; those that the pattern accepts.
* `Fits`: no call of `read` returns more than was asked for.
* **`grep_iff`**: the output does not depend on the chunks if and only if each has a newline.
-/

namespace OsPlayground

namespace Grep

open Scsh (At at_nil at_cons at_append)

/-- `sizeof(buf)` -/
abbrev BUFSIZE : ℕ := 1024

/-! ## The code -/

/-- `strchr` of `ulib.c`, over at most `k` characters. -/
def strchr (mem : ℕ → ℕ) (c : ℕ) : ℕ → ℕ → Option ℕ
  | 0, _ => none
  | k + 1, s => if mem s = 0 then none else if mem s = c then some s else strchr mem c k (s + 1)

/-- The string at `p`, of at most `k` characters. -/
def stringAt (mem : ℕ → ℕ) : ℕ → ℕ → List ℕ
  | 0, _ => []
  | k + 1, p => if mem p = 0 then [] else mem p :: stringAt mem k (p + 1)

/-- `memmove` of `ulib.c`: it always copies forwards. -/
def memmove : ℕ → ℕ → ℕ → (ℕ → ℕ) → ℕ → ℕ
  | 0, _, _, mem => mem
  | n + 1, dst, src, mem => memmove n (dst + 1) (src + 1) (Function.update mem dst (mem src))

/-- The characters that `read` stores at `p`. -/
def store : ℕ → List ℕ → (ℕ → ℕ) → ℕ → ℕ
  | _, [], mem => mem
  | p, c :: w, mem => store (p + 1) w (Function.update mem p c)

/-- The inner loop, with at most `k` lines to go: `buf`, `p` and what was written. -/
def lineLoop (pattern : List ℕ) : ℕ → (ℕ → ℕ) → ℕ → (ℕ → ℕ) × ℕ × List ℕ
  | 0, mem, p => (mem, p, [])
  | k + 1, mem, p =>
    match strchr mem 10 BUFSIZE p with
    | none => (mem, p, [])
    | some q =>
      let cut := Function.update mem q 0
      if matchRe pattern (stringAt cut BUFSIZE p) then
        let mem := Function.update cut q 10
        let r := lineLoop pattern k mem (q + 1)
        (r.1, r.2.1, (List.range' p (q + 1 - p)).map mem ++ r.2.2)
      else lineLoop pattern k cut (q + 1)

/-- The body of the outer loop, when `read` returned `chunk`: `buf`, `m` and what was written. -/
def grepChunk (pattern : List ℕ) (mem : ℕ → ℕ) (m : ℕ) (chunk : List ℕ) :
    (ℕ → ℕ) × ℕ × List ℕ :=
  let mem := store m chunk mem
  let m := m + chunk.length
  let mem := Function.update mem m 0
  let r := lineLoop pattern BUFSIZE mem 0
  let p := r.2.1
  let m := if p = 0 then 0 else m
  if 0 < m then (memmove (m - p) 0 p r.1, m - p, r.2.2) else (r.1, m, r.2.2)

/-- `grep`, with `m` characters in `buf`: what it writes. -/
def grep (pattern : List ℕ) : List (List ℕ) → (ℕ → ℕ) → ℕ → List ℕ
  | [], _, _ => []
  | chunk :: chunks, mem, m =>
    let r := grepChunk pattern mem m chunk
    r.2.2 ++ grep pattern chunks r.1 r.2.1

/-- Each chunk is what `read(fd, buf+m, sizeof(buf)-m-1)` can return before the end of the input. -/
def Fits (pattern : List ℕ) : List (List ℕ) → (ℕ → ℕ) → ℕ → Prop
  | [], _, _ => True
  | chunk :: chunks, mem, m =>
    chunk ≠ [] ∧ chunk.length ≤ BUFSIZE - m - 1 ∧
      let r := grepChunk pattern mem m chunk
      Fits pattern chunks r.1 r.2.1

/-! ## Lines -/

/-- A character of a line. -/
def Plain (c : ℕ) : Prop := c ≠ 0 ∧ c ≠ 10

/-- Lines with their newlines. -/
def stream (ls : List (List ℕ)) : List ℕ := ls.flatMap (· ++ [10])

/-- What should be written. -/
def accepted (pattern : List ℕ) (ls : List (List ℕ)) : List ℕ := stream (ls.filter (matchRe pattern))

theorem stream_cons (l : List ℕ) (ls : List (List ℕ)) : stream (l :: ls) = l ++ 10 :: stream ls := by
  rw [stream, List.flatMap_cons, List.append_assoc]
  rfl

theorem stream_append (ls ls' : List (List ℕ)) : stream (ls ++ ls') = stream ls ++ stream ls' :=
  List.flatMap_append

theorem accepted_append (pattern : List ℕ) (ls ls' : List (List ℕ)) :
    accepted pattern (ls ++ ls') = accepted pattern ls ++ accepted pattern ls' := by
  rw [accepted, List.filter_append, stream_append]
  rfl

theorem accepted_cons_pos {pattern l : List ℕ} (h : matchRe pattern l = true) (ls : List (List ℕ)) :
    accepted pattern (l :: ls) = l ++ [10] ++ accepted pattern ls := by
  rw [accepted, List.filter_cons_of_pos h, stream_cons, List.append_assoc]
  rfl

theorem accepted_cons_neg {pattern l : List ℕ} (h : ¬ matchRe pattern l = true) (ls : List (List ℕ)) :
    accepted pattern (l :: ls) = accepted pattern ls := by
  rw [accepted, List.filter_cons_of_neg h]
  rfl

theorem exists_lines : ∀ x : List ℕ, (∀ c ∈ x, c ≠ 0) →
    ∃ ls r, x = stream ls ++ r ∧ (∀ l ∈ ls, ∀ c ∈ l, Plain c) ∧ ∀ c ∈ r, Plain c
  | [], _ => ⟨[], [], rfl, by simp, by simp⟩
  | c :: x, h => by
    obtain ⟨h0, hx⟩ := List.forall_mem_cons.1 h
    obtain ⟨ls, r, rfl, hls, hr⟩ := exists_lines x hx
    by_cases hc : c = 10
    · refine ⟨[] :: ls, r, ?_, List.forall_mem_cons.2 ⟨by simp, hls⟩, hr⟩
      rw [stream_cons, hc]
      rfl
    · cases ls with
      | nil => exact ⟨[], c :: r, rfl, by simp, List.forall_mem_cons.2 ⟨⟨h0, hc⟩, hr⟩⟩
      | cons l ls =>
        obtain ⟨hl, hls⟩ := List.forall_mem_cons.1 hls
        refine ⟨(c :: l) :: ls, r, ?_, List.forall_mem_cons.2 ⟨?_, hls⟩, hr⟩
        · rw [stream_cons, stream_cons]
          rfl
        · exact List.forall_mem_cons.2 ⟨⟨h0, hc⟩, hl⟩

/-- The lines of a part of the stream are the first ones of the stream. -/
theorem lines_of_prefix {ls : List (List ℕ)} {x y : List ℕ} (h : x ++ y = stream ls)
    (hls : ∀ l ∈ ls, ∀ c ∈ l, Plain c) : ∃ ls₁ ls₂ r, ls = ls₁ ++ ls₂ ∧ x = stream ls₁ ++ r ∧
      r ++ y = stream ls₂ ∧ ∀ c ∈ r, Plain c := by
  induction ls generalizing x with
  | nil =>
    obtain ⟨rfl, rfl⟩ := List.append_eq_nil_iff.1 h
    exact ⟨[], [], [], rfl, rfl, rfl, by simp⟩
  | cons l ls ih =>
    obtain ⟨hl, hls⟩ := List.forall_mem_cons.1 hls
    rw [stream_cons] at h
    rcases List.append_eq_append_iff.1 h with ⟨u, hu, hy⟩ | ⟨u, rfl, hu⟩
    · -- the first line is not complete
      refine ⟨[], l :: ls, x, rfl, rfl, ?_, fun c hc => hl c ?_⟩
      · rw [h, stream_cons]
      · rw [hu]
        exact List.mem_append_left _ hc
    · cases u with
      | nil =>
        refine ⟨[], l :: ls, l, rfl, by simp [stream], ?_, hl⟩
        rw [stream_cons, hu]
        rfl
      | cons c u =>
        obtain ⟨rfl, htail⟩ := List.cons.inj hu
        obtain ⟨ls₁, ls₂, r, rfl, rfl, hr, hplain⟩ := ih htail.symm hls
        refine ⟨l :: ls₁, ls₂, r, rfl, ?_, hr, hplain⟩
        rw [stream_cons, List.append_assoc]
        rfl

/-! ## Characters in the buffer -/

section Buffer

variable {mem : ℕ → ℕ} {p q k : ℕ} {l w : List ℕ}

theorem at_congr {mem' : ℕ → ℕ} (h : At mem p w)
    (he : ∀ i, p ≤ i → i < p + w.length → mem' i = mem i) :
    At mem' p w := fun i hi => by rw [he (p + i) (by omega) (by omega), h i hi]

theorem strchr_some (h : At mem p (l ++ [10])) (hl : ∀ c ∈ l, Plain c) (hk : l.length < k) :
    strchr mem 10 k p = some (p + l.length) := by
  induction l generalizing p k with
  | nil =>
    obtain ⟨k, rfl⟩ : ∃ j, k = j + 1 := ⟨k - 1, by simp only [List.length_nil] at hk; omega⟩
    have hp : mem p = 10 := (at_cons.1 h).1
    rw [strchr, hp, if_neg (by decide), if_pos rfl]
    rfl
  | cons c l ih =>
    obtain ⟨k, rfl⟩ : ∃ j, k = j + 1 := ⟨k - 1, by omega⟩
    obtain ⟨⟨h0, h10⟩, hl⟩ := List.forall_mem_cons.1 hl
    obtain ⟨hp, hrest⟩ := at_cons.1 h
    rw [List.length_cons] at hk ⊢
    rw [strchr, hp, if_neg h0, if_neg h10, ih hrest hl (by omega), Nat.add_right_comm, Nat.add_assoc]

theorem strchr_none (h : At mem p (l ++ [0])) (hl : ∀ c ∈ l, Plain c) : strchr mem 10 k p = none := by
  induction l generalizing p k with
  | nil =>
    cases k with
    | zero => rfl
    | succ k => rw [strchr, if_pos (at_cons.1 h).1]
  | cons c l ih =>
    cases k with
    | zero => rfl
    | succ k =>
      obtain ⟨⟨h0, h10⟩, hl⟩ := List.forall_mem_cons.1 hl
      obtain ⟨hp, hrest⟩ := at_cons.1 h
      rw [strchr, hp, if_neg h0, if_neg h10, ih hrest hl]

theorem stringAt_eq (h : At mem p (l ++ [0])) (hl : ∀ c ∈ l, Plain c) (hk : l.length < k) :
    stringAt mem k p = l := by
  induction l generalizing p k with
  | nil =>
    obtain ⟨k, rfl⟩ : ∃ j, k = j + 1 := ⟨k - 1, by simp only [List.length_nil] at hk; omega⟩
    rw [stringAt, if_pos (at_cons.1 h).1]
  | cons c l ih =>
    obtain ⟨k, rfl⟩ : ∃ j, k = j + 1 := ⟨k - 1, by omega⟩
    obtain ⟨⟨h0, -⟩, hl⟩ := List.forall_mem_cons.1 hl
    obtain ⟨hp, hrest⟩ := at_cons.1 h
    rw [List.length_cons] at hk
    rw [stringAt, hp, if_neg h0, ih hrest hl (by omega)]

theorem map_range' (h : At mem p w) : (List.range' p w.length).map mem = w := by
  induction w generalizing p with
  | nil => rfl
  | cons c w ih =>
    obtain ⟨hp, hrest⟩ := at_cons.1 h
    rw [List.length_cons, List.range'_succ, List.map_cons, hp, ih hrest]

theorem store_of_lt (h : q < p) : store p w mem q = mem q := by
  induction w generalizing p mem with
  | nil => rfl
  | cons c w ih =>
    rw [store, ih (by omega)]
    exact Function.update_of_ne (by omega) _ _

theorem at_store : At (store p w mem) p w := by
  induction w generalizing p mem with
  | nil => exact at_nil p
  | cons c w ih =>
    refine at_cons.2 ⟨?_, ih⟩
    rw [store, store_of_lt (by omega)]
    exact Function.update_self _ _ _

theorem memmove_of_lt {n dst src : ℕ} (h : q < dst) : memmove n dst src mem q = mem q := by
  induction n generalizing dst src mem with
  | zero => rfl
  | succ n ih =>
    rw [memmove, ih (by omega)]
    exact Function.update_of_ne (by omega) _ _

theorem at_memmove {dst src : ℕ} (hle : dst ≤ src) (h : At mem src w) :
    At (memmove w.length dst src mem) dst w := by
  induction w generalizing dst src mem with
  | nil => exact at_nil dst
  | cons c w ih =>
    obtain ⟨hp, hrest⟩ := at_cons.1 h
    refine at_cons.2 ⟨?_, ih (by omega) (at_congr hrest fun i hi _ => ?_)⟩
    · rw [List.length_cons, memmove, memmove_of_lt (by omega), Function.update_self, hp]
    · exact Function.update_of_ne (by omega) _ _

end Buffer

/-! ## One chunk -/

section Chunk

variable {mem : ℕ → ℕ} {p m k : ℕ} {ls : List (List ℕ)} {r pre chunk : List ℕ}

/-- The inner loop writes the complete lines that the pattern accepts and leaves the rest. -/
theorem lineLoop_spec (pattern : List ℕ) (h : At mem p (stream ls ++ (r ++ [0]))) (hls : ∀ l ∈ ls, ∀ c ∈ l, Plain c)
    (hr : ∀ c ∈ r, Plain c) (hk : ls.length < k) (hlen : (stream ls).length < BUFSIZE) :
    ∃ mem', lineLoop pattern k mem p = (mem', p + (stream ls).length, accepted pattern ls) ∧
      At mem' (p + (stream ls).length) r := by
  induction ls generalizing mem p k with
  | nil =>
    obtain ⟨k, rfl⟩ : ∃ j, k = j + 1 := ⟨k - 1, by omega⟩
    have hnone : strchr mem 10 BUFSIZE p = none := strchr_none h hr
    refine ⟨mem, ?_, (at_append (v := r)).1 h |>.1⟩
    rw [lineLoop, hnone]
    rfl
  | cons l ls ih =>
    obtain ⟨k, rfl⟩ : ∃ j, k = j + 1 := ⟨k - 1, by omega⟩
    obtain ⟨hl, hls⟩ := List.forall_mem_cons.1 hls
    rw [stream_cons] at h hlen ⊢
    simp only [List.length_append, List.length_cons] at hlen hk
    have hline : l ++ 10 :: stream ls ++ (r ++ [0]) = (l ++ [10]) ++ (stream ls ++ (r ++ [0])) := by
      simp
    rw [hline] at h
    obtain ⟨hfirst, hrest⟩ := at_append.1 h
    rw [List.length_append, List.length_singleton, ← Nat.add_assoc] at hrest
    have hsome : strchr mem 10 BUFSIZE p = some (p + l.length) := strchr_some hfirst hl (by omega)
    have hpos : p + (l ++ 10 :: stream ls).length = p + l.length + 1 + (stream ls).length := by
      rw [List.length_append, List.length_cons]
      omega
    -- the line is a string while its newline is NUL
    have hcut : At (Function.update mem (p + l.length) 0) p (l ++ [0]) := by
      refine at_append.2 ⟨?_, at_cons.2 ⟨Function.update_self _ _ _, at_nil _⟩⟩
      exact at_congr (at_append.1 hfirst).1 fun i _ hi => Function.update_of_ne (by omega) _ _
    have hstring : stringAt (Function.update mem (p + l.length) 0) BUFSIZE p = l :=
      stringAt_eq hcut hl (by omega)
    rw [lineLoop, hsome]
    dsimp only
    rw [hstring, hpos]
    by_cases hm : matchRe pattern l = true
    · rw [if_pos hm, Function.update_idem]
      have hback : Function.update mem (p + l.length) 10 = mem := by
        have h10 := (at_cons.1 (at_append.1 hfirst).2).1
        rw [← h10]
        exact Function.update_eq_self _ _
      obtain ⟨mem', hloop, hat⟩ := ih (k := k) hrest hls (by omega) (by omega)
      have hout : (List.range' p (p + l.length + 1 - p)).map mem = l ++ [10] := by
        have hn : p + l.length + 1 - p = (l ++ [10]).length := by
          rw [List.length_append, List.length_singleton]
          omega
        rw [hn]
        exact map_range' hfirst
      refine ⟨mem', ?_, hat⟩
      rw [hback, hloop, hout, accepted_cons_pos hm]
    · rw [if_neg hm]
      have hkeep : At (Function.update mem (p + l.length) 0) (p + l.length + 1)
          (stream ls ++ (r ++ [0])) :=
        at_congr hrest fun i hi _ => Function.update_of_ne (by omega) _ _
      obtain ⟨mem', hloop, hat⟩ := ih (k := k) hkeep hls (by omega) (by omega)
      refine ⟨mem', ?_, hat⟩
      rw [hloop, accepted_cons_neg hm]

/-- **One chunk.** What was carried over and the chunk are complete lines and a part of a line: the
accepted ones are written, and the part is carried over, except if there is no newline at all. -/
theorem grepChunk_spec (pattern : List ℕ) (h : At mem 0 pre)
    (hx : pre ++ chunk = stream ls ++ r)
    (hls : ∀ l ∈ ls, ∀ c ∈ l, Plain c) (hr : ∀ c ∈ r, Plain c)
    (hlen : pre.length + chunk.length < BUFSIZE) :
    ∃ mem' r', grepChunk pattern mem pre.length chunk = (mem', r'.length, accepted pattern ls) ∧
      At mem' 0 r' ∧ r' = if ls = [] then [] else r := by
  have hall : At (Function.update (store pre.length chunk mem) (pre.length + chunk.length) 0) 0
      (stream ls ++ (r ++ [0])) := by
    rw [← List.append_assoc, ← hx]
    refine at_append.2 ⟨at_append.2 ⟨?_, ?_⟩, at_cons.2 ⟨?_, at_nil _⟩⟩
    · refine at_congr h fun i _ hi => ?_
      rw [Function.update_of_ne (by omega), store_of_lt (by omega)]
    · rw [Nat.zero_add]
      exact at_congr at_store fun i _ hi => Function.update_of_ne (by omega) _ _
    · rw [List.length_append, Nat.zero_add, Function.update_self]
  have hsum : pre.length + chunk.length = (stream ls).length + r.length := by
    rw [← List.length_append, hx, List.length_append]
  have hcount : ls.length ≤ (stream ls).length := by
    clear hx hls hall hsum
    induction ls with
    | nil => exact le_rfl
    | cons l ls ih =>
      rw [stream_cons, List.length_append, List.length_cons, List.length_cons]
      omega
  obtain ⟨mem', hloop, hat⟩ := lineLoop_spec (k := BUFSIZE) pattern hall hls hr
    (by omega) (by omega)
  unfold grepChunk
  dsimp only
  rw [hloop]
  dsimp only
  rw [Nat.zero_add] at hat ⊢
  by_cases hnil : ls = []
  · subst hnil
    exact ⟨mem', [], rfl, at_nil 0, (if_pos rfl).symm⟩
  · have hpos : (stream ls).length ≠ 0 := by
      have := List.length_pos_of_ne_nil hnil
      omega
    have hm : 0 < (stream ls).length + r.length := by omega
    have hmove := at_memmove (Nat.zero_le (stream ls).length) hat
    refine ⟨memmove r.length 0 (stream ls).length mem', r, ?_, hmove, (if_neg hnil).symm⟩
    rw [if_neg hpos, hsum, if_pos hm, Nat.add_sub_cancel_left]

end Chunk

/-! ## All chunks -/

theorem lines_eq_nil {ls : List (List ℕ)} {r x : List ℕ} (hx : x = stream ls ++ r)
    (h : ∀ c ∈ x, Plain c) : ls = [] := by
  cases ls with
  | nil => rfl
  | cons l ls =>
    rw [stream_cons] at hx
    exact absurd rfl (h 10 (by rw [hx]; simp)).2

theorem newline_mem {ls : List (List ℕ)} {r pre chunk : List ℕ} (hx : pre ++ chunk = stream ls ++ r)
    (hr : ∀ c ∈ r, Plain c) (h : 10 ∈ chunk) : ls ≠ [] := by
  rintro rfl
  have hmem : 10 ∈ r := by
    have : 10 ∈ pre ++ chunk := List.mem_append_right _ h
    rwa [hx] at this
  exact (hr 10 hmem).2 rfl

/-- If each chunk has a newline, nothing is lost. -/
theorem grep_of_newlines {pattern : List ℕ} : ∀ {chunks ls : List (List ℕ)} {mem : ℕ → ℕ} {pre : List ℕ},
    At mem 0 pre → (∀ c ∈ pre, Plain c) → pre ++ chunks.flatten = stream ls →
    (∀ l ∈ ls, ∀ c ∈ l, Plain c) → Fits pattern chunks mem pre.length → (∀ c ∈ chunks, 10 ∈ c) →
    grep pattern chunks mem pre.length = accepted pattern ls
  | [], ls, mem, pre, _, hpre, hx, _, _, _ => by
    rw [List.flatten_nil, List.append_nil] at hx
    obtain rfl : ls = [] := lines_eq_nil (r := []) (by rw [hx, List.append_nil]) hpre
    rfl
  | chunk :: chunks, ls, mem, pre, h, hpre, hx, hls, hfit, hnl => by
    obtain ⟨hchunk, hnl⟩ := List.forall_mem_cons.1 hnl
    rw [List.flatten_cons, ← List.append_assoc] at hx
    obtain ⟨ls₁, ls₂, r, rfl, hx₁, hx₂, hr⟩ := lines_of_prefix hx hls
    obtain ⟨hls₁, hls₂⟩ := List.forall_mem_append.1 hls
    obtain ⟨-, hlen, hfit⟩ := hfit
    have hpos : chunk ≠ [] := List.ne_nil_of_mem hchunk
    obtain ⟨mem', r', hstep, hat, hr'⟩ := grepChunk_spec pattern h hx₁ hls₁ hr (by
      have := List.length_pos_of_ne_nil hpos
      omega)
    rw [if_neg (newline_mem hx₁ hr hchunk)] at hr'
    subst hr'
    rw [hstep] at hfit
    rw [grep, hstep, accepted_append]
    dsimp only
    rw [grep_of_newlines hat hr hx₂ hls₂ hfit hnl]

theorem accepted_nil (ls : List (List ℕ)) : accepted [] ls = stream ls := by
  have hall : ∀ l ∈ ls, matchRe [] l = true := fun l _ => by
    cases l <;> rfl
  rw [accepted, List.filter_eq_self.2 hall]

/-- With the empty pattern everything is written that is not lost. -/
theorem length_grep_le : ∀ {chunks : List (List ℕ)} {mem : ℕ → ℕ} {pre : List ℕ},
    At mem 0 pre → (∀ c ∈ pre, Plain c) → (∀ w ∈ chunks, ∀ c ∈ w, c ≠ 0) →
    Fits [] chunks mem pre.length →
    (grep [] chunks mem pre.length).length ≤ pre.length + chunks.flatten.length ∧
      ((∃ w ∈ chunks, 10 ∉ w) →
        (grep [] chunks mem pre.length).length < pre.length + chunks.flatten.length)
  | [], mem, pre, _, _, _, _ => ⟨Nat.zero_le _, by simp⟩
  | chunk :: chunks, mem, pre, h, hpre, h0, hfit => by
    obtain ⟨hchunk, h0⟩ := List.forall_mem_cons.1 h0
    obtain ⟨hne, hlen, hfit⟩ := hfit
    have hpos : 0 < chunk.length := List.length_pos_of_ne_nil hne
    obtain ⟨ls, r, hx, hls, hr⟩ := exists_lines (pre ++ chunk)
      (List.forall_mem_append.2 ⟨fun c hc => (hpre c hc).1, hchunk⟩)
    obtain ⟨mem', r', hstep, hat, hr'⟩ := grepChunk_spec [] h hx hls hr (by omega)
    have hplain : ∀ c ∈ r', Plain c := by
      rw [hr']
      split_ifs
      · simp
      · exact hr
    have hsum : pre.length + chunk.length = (stream ls).length + r.length := by
      rw [← List.length_append, hx, List.length_append]
    rw [hstep] at hfit
    obtain ⟨hle, hlt⟩ := length_grep_le hat hplain h0 hfit
    rw [grep, hstep, accepted_nil, List.flatten_cons]
    dsimp only
    rw [List.length_append, List.length_append]
    by_cases hnil : ls = []
    · -- a chunk without a newline, and all that was carried over, is lost
      rw [if_pos hnil] at hr'
      subst hnil hr'
      have hs : (stream []).length = 0 := rfl
      have hl : ([] : List ℕ).length = 0 := rfl
      exact ⟨by omega, fun _ => by omega⟩
    · rw [if_neg hnil] at hr'
      subst hr'
      refine ⟨by omega, fun ⟨w, hw, h10⟩ => ?_⟩
      rcases List.mem_cons.1 hw with rfl | hw
      · refine absurd (lines_eq_nil hx fun c hc => ?_) hnil
        rcases List.mem_append.1 hc with hc | hc
        · exact hpre c hc
        · exact ⟨hchunk c hc, fun hc10 => h10 (hc10 ▸ hc)⟩
      · have := hlt ⟨w, hw, h10⟩
        omega

/-- **`grep` and its chunks.** It writes the accepted lines for every pattern if and only if each chunk
has a newline. -/
theorem grep_iff {chunks ls : List (List ℕ)} {mem : ℕ → ℕ} (hx : chunks.flatten = stream ls)
    (hls : ∀ l ∈ ls, ∀ c ∈ l, c ≠ 0 ∧ c ≠ 10)
    (hfit : ∀ pattern, Fits pattern chunks mem 0) :
    (∀ pattern, grep pattern chunks mem 0 = accepted pattern ls) ↔ ∀ c ∈ chunks, 10 ∈ c := by
  constructor
  · intro h
    by_contra hnl
    push Not at hnl
    have h0 : ∀ w ∈ chunks, ∀ c ∈ w, c ≠ 0 := by
      intro w hw c hc
      have hmem : c ∈ stream ls := by
        rw [← hx]
        exact List.mem_flatten.2 ⟨w, hw, hc⟩
      obtain ⟨l, hl, hcl⟩ := List.mem_flatMap.1 hmem
      rcases List.mem_append.1 hcl with hcl | hcl
      · exact (hls l hl c hcl).1
      · rw [List.mem_singleton.1 hcl]
        decide
    have hlt := (length_grep_le (at_nil 0) (by simp) h0 (hfit [])).2 hnl
    rw [List.length_nil, h [], accepted_nil, hx, Nat.zero_add] at hlt
    exact lt_irrefl _ hlt
  · intro hnl pattern
    exact grep_of_newlines (at_nil 0) (by simp) hx hls (hfit pattern) hnl

theorem cut_fits (pattern : List ℕ) :
    Fits pattern [[97, 98, 10, 99], [100, 10]] (fun _ => 0) 0 := by
  obtain ⟨mem', r', hc, -, hr⟩ : ∃ mem' r', grepChunk pattern (fun _ => 0) 0 [97, 98, 10, 99] =
      (mem', r'.length, accepted pattern [[97, 98]]) ∧ At mem' 0 r' ∧
        r' = if [[97, 98]] = ([] : List (List ℕ)) then [] else [99] :=
    grepChunk_spec pattern (at_nil 0) (by rfl) (show ∀ l ∈ [[97, 98]], ∀ c ∈ l, c ≠ 0 ∧ c ≠ 10 by decide)
      (show ∀ c ∈ [99], c ≠ 0 ∧ c ≠ 10 by decide) (by decide)
  rw [if_neg (by decide)] at hr
  refine ⟨by decide, by decide, by decide, ?_, trivial⟩
  rw [hc, hr]
  show 2 ≤ BUFSIZE - 1 - 1
  decide

/-- `grep d` on two lines, the second of them cut by a chunk. -/
theorem grep_iff_lines :
    grep [100] [[97, 98, 10, 99], [100, 10]] (fun _ => 0) 0 = accepted [100] [[97, 98], [99, 100]] :=
  (grep_iff (show [[97, 98, 10, 99], [100, 10]].flatten = stream [[97, 98], [99, 100]] from rfl)
    (by decide) cut_fits).2 (by decide) [100]

/-- The newline comes in a chunk of its own. -/
theorem not_grep : ¬ ∀ (chunks ls : List (List ℕ)) (mem : ℕ → ℕ) (pattern : List ℕ),
    chunks.flatten = stream ls → (∀ l ∈ ls, (∀ c ∈ l, c ≠ 0 ∧ c ≠ 10) ∧ l.length < BUFSIZE - 1) →
    Fits pattern chunks mem 0 → grep pattern chunks mem 0 = accepted pattern ls := by
  intro h
  have hfit : Fits [] [[97], [10]] (fun _ => 0) 0 :=
    ⟨by decide, by decide, by decide, by decide, trivial⟩
  exact absurd (h [[97], [10]] [[97]] (fun _ => 0) [] rfl (by decide) hfit) (by decide)

end Grep

end OsPlayground
