import OsPlayground.Sh.Tree

/-!
# A printed command comes back

* `ends`, `nulterminate_apply`: where `nulterminate` writes.
* `shape_ends`, `ends_break`: at the end of every string, and never into a word.
* **`parsecmd_print`**: the parser undoes printing.
-/

namespace OsPlayground

namespace Sh

open Scsh (At at_append at_bytesOf at_cons at_nil bytesOf strlen strlen_of_ne_zero)

/-! ## The terminators -/

/-- Where `nulterminate` writes. -/
def ends : Cmd → List ℕ
  | .EXEC argv => argv.map Prod.snd
  | .REDIR cmd _ efile _ _ => efile :: ends cmd
  | .PIPE left right => ends left ++ ends right
  | .LIST left right => ends left ++ ends right
  | .BACK cmd => ends cmd

theorem terminate_argv (argv : List (ℕ × ℕ)) : ∀ (mem : ℕ → ℕ) (x : ℕ),
    argv.foldl (fun mem a => Function.update mem a.2 0) mem x =
      if x ∈ argv.map Prod.snd then 0 else mem x := by
  induction argv with
  | nil => exact fun mem x => rfl
  | cons a argv ih =>
    intro mem x
    rw [List.foldl_cons, ih, List.map_cons]
    by_cases h : x ∈ argv.map Prod.snd
    · rw [if_pos h, if_pos (List.mem_cons_of_mem _ h)]
    · by_cases hx : x = a.2
      · rw [if_neg h, if_pos (hx ▸ List.mem_cons_self), hx, Function.update_self]
      · rw [if_neg h, if_neg (by simp [hx, h]), Function.update_of_ne hx]

theorem nulterminate_apply (c : Cmd) : ∀ (mem : ℕ → ℕ) (x : ℕ),
    nulterminate c mem x = if x ∈ ends c then 0 else mem x := by
  -- two trees, one after the other
  have two : ∀ {l r : Cmd}, (∀ mem x, nulterminate l mem x = if x ∈ ends l then 0 else mem x) →
      (∀ mem x, nulterminate r mem x = if x ∈ ends r then 0 else mem x) → ∀ mem x,
      nulterminate r (nulterminate l mem) x = if x ∈ ends l ++ ends r then 0 else mem x := by
    intro l r hl hr mem x
    rw [hr, hl]
    by_cases h : x ∈ ends r
    · rw [if_pos h, if_pos (List.mem_append_right _ h)]
    · by_cases h' : x ∈ ends l
      · rw [if_neg h, if_pos h', if_pos (List.mem_append_left _ h')]
      · rw [if_neg h, if_neg h', if_neg (by simp [h, h'])]
  induction c with
  | EXEC argv => exact terminate_argv argv
  | REDIR cmd file efile mode fd ih =>
    intro mem x
    rw [nulterminate, ends]
    by_cases hx : x = efile
    · rw [if_pos (hx ▸ List.mem_cons_self), hx, Function.update_self]
    · rw [Function.update_of_ne hx, ih]
      simp only [List.mem_cons, hx, false_or]
  | PIPE l r hl hr => exact two hl hr
  | LIST l r hl hr => exact two hl hr
  | BACK cmd ih => exact ih

/-- The end of every string is one of them. -/
theorem shape_ends {R : ℕ → ℕ → List ℕ → Prop} {c : Cmd} {t : Tree} (h : Shape R c t) :
    Shape (fun q eq w => R q eq w ∧ eq ∈ ends c) c t := by
  have sub : ∀ {d : Cmd} {u : Tree} {c : Cmd}, (∀ x ∈ ends d, x ∈ ends c) →
      Shape (fun q eq w => R q eq w ∧ eq ∈ ends d) d u →
      Shape (fun q eq w => R q eq w ∧ eq ∈ ends c) d u :=
    fun hsub hd => hd.mono fun _ _ _ hw => ⟨hw.1, hsub _ hw.2⟩
  induction h with
  | @exec argv ws h =>
    refine .exec ?_
    rw [List.forall₂_iff_zip] at h ⊢
    refine ⟨h.1, fun {a w} hz => ⟨h.2 hz, ?_⟩⟩
    exact List.mem_map_of_mem (List.of_mem_zip hz).1
  | redir _ hw ih =>
    exact .redir (sub (fun x hx => List.mem_cons_of_mem _ hx) ih) ⟨hw, List.mem_cons_self⟩
  | pipe _ _ hl hr =>
    exact .pipe (sub (fun x hx => List.mem_append_left _ hx) hl)
      (sub (fun x hx => List.mem_append_right _ hx) hr)
  | list _ _ hl hr =>
    exact .list (sub (fun x hx => List.mem_append_left _ hx) hl)
      (sub (fun x hx => List.mem_append_right _ hx) hr)
  | back _ ih => exact .back ih

section Terminate

variable {mem : ℕ → ℕ}

theorem ends_break {c : Cmd} {t : Tree} (h : Shape (Reads mem) c t) :
    ∀ x ∈ ends c, isBreak (mem x) = true := by
  induction h with
  | @exec argv ws h =>
    induction h with
    | nil => exact fun x hx => absurd hx List.not_mem_nil
    | cons ha _ ih => exact List.forall_mem_cons.mpr ⟨ha.stop, ih⟩
  | redir _ hw ih => exact List.forall_mem_cons.mpr ⟨hw.stop, ih⟩
  | pipe _ _ hl hr => exact List.forall_mem_append.mpr ⟨hl, hr⟩
  | list _ _ hl hr => exact List.forall_mem_append.mpr ⟨hl, hr⟩
  | back _ ih => exact ih

/-- A string reads as `w`: its bytes and the NUL. -/
def Holds (mem : ℕ → ℕ) (q _eq : ℕ) (w : List ℕ) : Prop := At mem q (w ++ [0])

/-- **The terminators never cut a word**: each string reads as the word that was there. -/
theorem shape_nulterminate {c : Cmd} {t : Tree} (h : Shape (Reads mem) c t) :
    Shape (Holds (nulterminate c mem)) c t := by
  refine (shape_ends h).mono fun q eq w hw => ?_
  obtain ⟨hr, hend⟩ := hw
  refine at_append.mpr ⟨fun i hi => ?_, at_cons.mpr ⟨?_, at_nil _⟩⟩
  · have hbyte := hr.bytes i hi
    have hnot : q + i ∉ ends c := fun hmem => by
      have hbreak := ends_break h _ hmem
      rw [hbyte, hr.ok.chars _ (List.getElem_mem hi)] at hbreak
      exact absurd hbreak (by decide)
    rw [nulterminate_apply, if_neg hnot, hbyte]
  · rw [nulterminate_apply, ← hr.eq_end, if_pos hend]

end Terminate

/-! ## The line -/

/-- **The shell parser undoes printing.** A command that can be printed is written down by `print`;
and from every line that writes it down, `parsecmd` makes a tree of the same shape, with the same
modes and descriptors, whose strings read as the words of the command in the bytes that
`nulterminate` leaves. -/
theorem parsecmd_print (cmd : Tree) (h : cmd.Ok) :
    Spelt cmd (print cmd) ∧ ∀ t, Spelt cmd t → ∃ c mem, parsecmd t = .ok (c, mem) ∧
      Shape (fun q _ w => At mem q (w ++ [0])) c cmd := by
  refine ⟨spelt_print h, fun t ht => ?_⟩
  obtain ⟨ts, hp, hs⟩ := ht
  have hes : strlen t = t.length := strlen_of_ne_zero (spells_ne_zero hs)
  have hnul : bytesOf t t.length = 0 := by simp [bytesOf]
  have hl : Lexes (bytesOf t) (strlen t) ts 0 :=
    lexes_spells hs (at_bytesOf t) (by rw [hes, Nat.zero_add]) (by rw [hes, hnul])
  have hlen := length_lexes hl
  rw [← List.append_nil ts] at hl
  obtain ⟨c, s, he, hc, hl⟩ := parses_prints hp h (4 * strlen t + 4) 0 [] (by omega) trivial hl
  have hend : (peek (bytesOf t) (strlen t) s []).2 = strlen t := hl.1
  refine ⟨c, nulterminate c (bytesOf t), ?_, shape_nulterminate hc⟩
  simp only [parsecmd, he, bind, Except.bind, hend, if_true, pure, Except.pure]

/-- The line `(a b<f)|((c)&)`. -/
theorem parsecmd_print_line :
    ∃ c mem, parsecmd [40, 97, 32, 98, 60, 102, 41, 124, 40, 40, 99, 41, 38, 41] = .ok (c, mem) ∧
      Shape (fun q _ w => At mem q (w ++ [0])) c
        (.pipe (.redir (.exec [[97], [98]]) .input [102]) (.back (.exec [[99]]))) := by
  have word : ∀ c : ℕ, isBreak c = false → WordOk [c] := fun c hc =>
    ⟨List.cons_ne_nil c [], List.forall_mem_singleton.mpr hc⟩
  have h : (Tree.pipe (.redir (.exec [[97], [98]]) .input [102]) (.back (.exec [[99]]))).Ok :=
    ⟨⟨⟨by decide, List.forall_mem_cons.mpr
      ⟨word 97 rfl, List.forall_mem_singleton.mpr (word 98 rfl)⟩⟩, word 102 rfl⟩,
      by decide, List.forall_mem_singleton.mpr (word 99 rfl)⟩
  exact (parsecmd_print _ h).2 _ (parsecmd_print _ h).1

end Sh

end OsPlayground
