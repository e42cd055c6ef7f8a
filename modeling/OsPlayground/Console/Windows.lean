import Mathlib.Data.Fin.Basic
import Mathlib.Data.List.FinRange
import Mathlib.Data.Nat.Digits.Defs
import Mathlib.Logic.Function.Basic
import Mathlib.Tactic.SplitIfs
import OsPlayground.Lib.Run

/-!
# Console windows

`console.c`: up to ten windows share the CGA screen. The current one is in video memory with the
hardware cursor, the others in save buffers.

* `Cga`, `cgaputc`, `title`, `splitw`, `cgaStep`: the code; a panic is `none`.
* `Window`, `Desk`, `deskStep`: the windows as a user sees them, each with its screen and cursor.
* `Shows`: the code's state shows a desk; `Cga.Ok.shows`: every good state shows one.
* `cgaputc_shows`, `title_shows`, `splitw_shows`: one step.
* **`windows_refine`**: every sequence of outputs, switches and titles.
-/

namespace OsPlayground

open Lib

abbrev MAXWINDOWS : ℕ := 10

/-- `BACKSPACE`, as `cgaputc` gets it. -/
abbrev CGA_BACKSPACE : ℤ := 0x100

/-- The cells of a window: 23 rows of 80. -/
abbrev CELLS : ℕ := 23 * 80

/-! ## The code -/

/-- The screen memory, the cursor registers, and what is saved of each window. -/
structure Cga where
  /-- The `ushort`s from `0xb8000` on. -/
  crt : ℕ → ℕ
  /-- Registers 14 and 15 of the controller. -/
  cursor : ℕ
  crtbufs : ℕ → ℕ → ℕ
  poss : ℕ → ℕ
  crtflags : ℕ → Bool
  curidx : ℕ
  cgaflag : Bool
  /-- `widx` of the processes. -/
  widx : ℕ → ℕ

/-- What `title` and `splitw` read of the process and of the CPU. -/
structure Caller where
  proc : ℕ
  priority : ℕ
  sz : ℕ
  apicid : ℕ

namespace Cga

/-- `memset` of the cells `[lo, hi)`. -/
def memset (lo hi v : ℕ) (crt : ℕ → ℕ) : ℕ → ℕ := fun i => if lo ≤ i ∧ i < hi then v else crt i

/-- `show`. -/
def «show» (cl : ℕ) : List ℕ → ℕ → (ℕ → ℕ) → ℕ → ℕ
  | [], _, crt => crt
  | c :: cs, base, crt => «show» cl cs (base + 1) (Function.update crt base (c ||| cl))

/-- `tostring`: the decimal digits, none of them for a number that is not positive. -/
def tostring (n : ℤ) : List ℕ := (Nat.digits 10 n.toNat).reverse.map (· + 48)

/-- A string literal of the source. -/
def literal (s : String) : List ℕ := s.toList.map Char.toNat

/-- A `uint` passed as an `int`. -/
def toInt (n : ℕ) : ℤ := if n < 2 ^ 31 then n else n - 2 ^ 32

/-- The cells that `title` writes: the line under the window and the status line. -/
def titleCells (curidx : ℕ) (p : Caller) (crt : ℕ → ℕ) : ℕ → ℕ :=
  let buf := tostring (toInt p.sz)
  let n := buf.length
  let crt := memset (23 * 80) (24 * 80) (45 ||| 0x0f00) crt
  let crt := «show» 0x0f00 (literal "window: ") (24 * 80 + 3) crt
  let crt := Function.update crt (24 * 80 + 11) ((curidx + 48) ||| 0x0b00)
  let crt := «show» 0x0f00 (literal "proc_priority: ") (24 * 80 + 14) crt
  let crt := Function.update crt (24 * 80 + 29) ((p.priority + 48) ||| 0x0b00)
  let crt := «show» 0x0f00 (literal "cpu: ") (24 * 80 + 32) crt
  let crt := Function.update crt (24 * 80 + 37) ((p.apicid + 48) ||| 0x0b00)
  let crt := «show» 0x0f00 (literal "user_memo: ") (24 * 80 + 40) crt
  let crt := «show» 0x0b00 buf (24 * 80 + 51) crt
  let crt := Function.update crt (24 * 80 + 51 + n) (32 ||| 0x0b00)
  Function.update crt (24 * 80 + 51 + n + 1) (66 ||| 0x0f00)

/-- `title`. -/
def title (p : Caller) (s : Cga) : Cga := { s with crt := titleCells s.curidx p s.crt }

/-- `cgaputc` of the `int` `c`. -/
def cgaputc (c : ℤ) (s : Cga) : Option Cga :=
  let pos := s.cursor
  let crt :=
    if c = 10 ∨ c = CGA_BACKSPACE then s.crt
    else Function.update s.crt pos ((c % 256).toNat ||| 0x0b00)
  let pos :=
    if c = 10 then pos + (80 - pos % 80)
    else if c = CGA_BACKSPACE then (if pos > 0 then pos - 1 else pos)
    else pos + 1
  if pos > 24 * 80 then none
  else
    -- Scroll up: `memmove` of 22 rows, then `memset` from the new cursor on.
    let scroll := decide (pos / 80 ≥ 23)
    let crt := if scroll then
        memset (pos - 80) (23 * 80) 0 fun i => if i < 22 * 80 then crt (i + 80) else crt i
      else crt
    let pos := if scroll then pos - 80 else pos
    some { s with cursor := pos % 2 ^ 16, crt := Function.update crt pos (32 ||| 0x0700) }

/-- `crtcpy`. -/
def crtcpy (tg ss : ℕ → ℕ) : ℕ → ℕ := fun i => if i < 80 * 23 then ss i else tg i

/-- `crtcpy(crtbufs[curidx], phycrt)` and `poss[curidx] = pos`. -/
def save (s : Cga) : Cga :=
  { s with
    crtbufs := Function.update s.crtbufs s.curidx (crtcpy (s.crtbufs s.curidx) s.crt)
    poss := Function.update s.poss s.curidx s.cursor }

/-- `splitw` of the process `p`. -/
def splitw (n : ℤ) (p : Caller) (s : Cga) : Cga :=
  let s := { s with cgaflag := true }
  if n = -1 then
    match (List.range MAXWINDOWS).find? fun i => !s.crtflags i with
    | none => s
    | some i =>
      { s.save with
        widx := Function.update s.widx p.proc i
        curidx := i
        crt := memset 0 (23 * 80) 0 s.crt
        cursor := 0
        crtflags := Function.update s.crtflags i true }.title p
  else if 0 ≤ n ∧ s.crtflags n.toNat then
    let s := s.save
    { s with
      curidx := n.toNat
      crt := crtcpy s.crt (s.crtbufs n.toNat)
      cursor := s.poss n.toNat % 2 ^ 16 }.title p
  else s

end Cga

/-- A character output, a call of `splitw`, or `title` at a timer interrupt. -/
inductive CgaEvent
  | putc (c : ℤ)
  | splitw (n : ℤ) (p : Caller)
  | title (p : Caller)

/-- One step, or `none` when `cgaputc` panics. -/
def cgaStep : CgaEvent → Cga → Option Cga
  | .putc c, s => s.cgaputc c
  | .splitw n p, s => some (s.splitw n p)
  | .title p, s => some (s.title p)

/-! ## The windows -/

/-- What a window shows, and where its cursor is. -/
structure Window where
  screen : Fin CELLS → ℕ
  cursor : Fin CELLS

/-- An empty screen with the cursor at 0. -/
def Window.empty : Window := ⟨fun _ => 0, ⟨0, by decide⟩⟩

namespace Window

/-- Where the cursor goes before scrolling; one past the last cell means that it must scroll. -/
def advance (c : ℤ) (pos : ℕ) : ℕ :=
  if c = 10 then (pos / 80 + 1) * 80 else if c = CGA_BACKSPACE then pos - 1 else pos + 1

/-- The screen with the character written. -/
def type (c : ℤ) (w : Window) : Fin CELLS → ℕ :=
  if c = 10 ∨ c = CGA_BACKSPACE then w.screen
  else Function.update w.screen w.cursor ((c % 256).toNat ||| 0x0b00)

/-- One row up, the last row empty. -/
def scroll (screen : Fin CELLS → ℕ) : Fin CELLS → ℕ := fun i =>
  if h : i.val + 80 < CELLS then screen ⟨i.val + 80, h⟩ else 0

theorem advance_le (c : ℤ) {pos : ℕ} (h : pos < CELLS) : advance c pos ≤ CELLS := by
  simp only [CELLS] at h ⊢
  unfold advance
  split_ifs <;> omega

/-- The output of a character: the cursor cell is then a blank. -/
def putc (c : ℤ) (w : Window) : Window :=
  if h : advance c w.cursor < CELLS then
    ⟨Function.update (w.type c) ⟨_, h⟩ (32 ||| 0x0700), ⟨_, h⟩⟩
  else
    have h' : advance c w.cursor - 80 < CELLS := by
      have := advance_le c w.cursor.isLt
      simp only [CELLS] at this ⊢
      omega
    ⟨Function.update (scroll (w.type c)) ⟨_, h'⟩ (32 ||| 0x0700), ⟨_, h'⟩⟩

end Window

/-- The open windows, with the one that is shown. -/
structure Desk where
  windows : Fin MAXWINDOWS → Option Window
  current : Fin MAXWINDOWS
  isOpen : (windows current).isSome

namespace Desk

/-- The window that is shown. -/
def shown (d : Desk) : Window := (d.windows d.current).get d.isOpen

/-- Replace the window that is shown. -/
def set (w : Window) (d : Desk) : Desk :=
  ⟨Function.update d.windows d.current (some w), d.current, by simp⟩

/-- Open an empty window. -/
def new (i : Fin MAXWINDOWS) (d : Desk) : Desk :=
  ⟨Function.update d.windows i (some .empty), i, by simp⟩

/-- The lowest index that is not open. -/
def free (d : Desk) : Option (Fin MAXWINDOWS) :=
  (List.finRange MAXWINDOWS).find? fun i => (d.windows i).isNone

/-- A new window at the lowest free index, or the open window `n`, or nothing. -/
def split (n : ℤ) (d : Desk) : Desk :=
  if n = -1 then
    match d.free with
    | none => d
    | some i => d.new i
  else if h : 0 ≤ n ∧ n.toNat < MAXWINDOWS then
    if ho : (d.windows ⟨n.toNat, h.2⟩).isSome then { d with current := ⟨n.toNat, h.2⟩, isOpen := ho }
    else d
  else d

end Desk

/-- What an event does to the desk; a title is not part of a window. -/
def deskStep : CgaEvent → Desk → Desk
  | .putc c, d => d.set (d.shown.putc c)
  | .splitw n _, d => d.split n
  | .title _, d => d

/-! ## The code shows a desk -/

/-- The current window is in video memory, the other open ones are in the buffers. -/
structure Shows (s : Cga) (d : Desk) : Prop where
  curidx : s.curidx = d.current
  crtflags : ∀ i : Fin MAXWINDOWS, s.crtflags i = (d.windows i).isSome
  crt : ∀ j : Fin CELLS, s.crt j = d.shown.screen j
  cursor : s.cursor = d.shown.cursor
  crtbufs : ∀ i w, i ≠ d.current → d.windows i = some w → ∀ j : Fin CELLS,
    s.crtbufs i j = w.screen j
  poss : ∀ i w, i ≠ d.current → d.windows i = some w → s.poss i = w.cursor

/-- The window `curidx` is open, and the cursor of every open window is on its screen. -/
structure Cga.Ok (s : Cga) : Prop where
  curidx : s.curidx < MAXWINDOWS
  isOpen : s.crtflags s.curidx = true
  cursor : s.cursor < 23 * 80
  poss : ∀ i < MAXWINDOWS, i ≠ s.curidx → s.crtflags i = true → s.poss i < 23 * 80

theorem Cga.Ok.consoleinit {s : Cga} (h₀ : s.curidx = 0) (hc : s.cursor < 23 * 80)
    (hf : ∀ i, s.crtflags i = decide (i = 0)) : s.Ok where
  curidx := by simp [h₀]
  isOpen := by simp [hf, h₀]
  cursor := hc
  poss i _ hi hfi := by simp [hf, ← h₀, hi] at hfi

namespace Desk

variable {d : Desk}

theorem windows_current : d.windows d.current = some d.shown :=
  (Option.some_get _).symm

@[simp] theorem set_current (w : Window) : (d.set w).current = d.current := rfl

@[simp] theorem set_shown (w : Window) : (d.set w).shown = w := by simp [shown, set]

@[simp] theorem new_current (i : Fin MAXWINDOWS) : (d.new i).current = i := rfl

@[simp] theorem new_shown (i : Fin MAXWINDOWS) : (d.new i).shown = .empty := by simp [shown, new]

/-- **An output changes only the window that is shown.** -/
theorem set_windows_of_ne {i : Fin MAXWINDOWS} (hi : i ≠ d.current) (w : Window) :
    (d.set w).windows i = d.windows i := by
  simp [set, hi]

end Desk

/-- **Every good state shows a desk.** -/
theorem Cga.Ok.shows {s : Cga} (h : s.Ok) : ∃ d, Shows s d := by
  obtain ⟨hcur, hopen, hcursor, hposs⟩ := h
  let w : Fin MAXWINDOWS → Option Window := fun i =>
    if s.crtflags i then
      if i.val = s.curidx then some ⟨fun j => s.crt j, ⟨s.cursor, hcursor⟩⟩
      else if hp : s.poss i < 23 * 80 then some ⟨fun j => s.crtbufs i j, ⟨s.poss i, hp⟩⟩ else none
    else none
  have hw : w ⟨s.curidx, hcur⟩ = some ⟨fun j => s.crt j, ⟨s.cursor, hcursor⟩⟩ := by
    simp [w, hopen]
  have hother : ∀ i : Fin MAXWINDOWS, i.val ≠ s.curidx → ∀ v, w i = some v →
      (∀ j : Fin CELLS, s.crtbufs i j = v.screen j) ∧ s.poss i = v.cursor := by
    intro i hi v hv
    simp only [w, hi, if_false] at hv
    split_ifs at hv
    obtain rfl := Option.some.inj hv
    exact ⟨fun _ => rfl, rfl⟩
  refine ⟨⟨w, ⟨s.curidx, hcur⟩, by simp [hw]⟩, ⟨rfl, fun i => ?_, fun j => ?_, ?_, ?_, ?_⟩⟩
  · by_cases hi : i.val = s.curidx
    · obtain rfl : i = ⟨s.curidx, hcur⟩ := Fin.ext hi
      simp [hw, hopen]
    · by_cases hf : s.crtflags i = true
      · simp [w, hf, hi, hposs i i.isLt hi hf]
      · simp [w, hf]
  · simp [Desk.shown, hw]
  · simp [Desk.shown, hw]
  · exact fun i v hi hv => (hother i (fun h => hi (Fin.ext h)) v hv).1
  · exact fun i v hi hv => (hother i (fun h => hi (Fin.ext h)) v hv).2

/-! ## One step -/

section Step

variable {s : Cga} {d : Desk}

theorem Shows.set (h : Shows s d) {crt : ℕ → ℕ} {cursor : ℕ} {w : Window}
    (hcrt : ∀ j : Fin CELLS, crt j = w.screen j) (hcursor : cursor = w.cursor) :
    Shows { s with crt := crt, cursor := cursor } (d.set w) where
  curidx := h.curidx
  crtflags i := by
    by_cases hi : i = d.current
    · subst hi
      rw [h.crtflags, Desk.windows_current, ← Desk.set_current (d := d) w, Desk.windows_current]
      rfl
    · rw [h.crtflags, d.set_windows_of_ne hi]
  crt := by simpa using hcrt
  cursor := by simpa using hcursor
  crtbufs i v hi hv := h.crtbufs i v hi (d.set_windows_of_ne hi w ▸ hv)
  poss i v hi hv := h.poss i v hi (d.set_windows_of_ne hi w ▸ hv)

/-- **`cgaputc` writes to the window that is shown.** -/
theorem cgaputc_shows (h : Shows s d) (c : ℤ) :
    ∃ t, s.cgaputc c = some t ∧ Shows t (d.set (d.shown.putc c)) := by
  set w := d.shown with hw
  have hcur : s.cursor < 1840 := by
    have := w.cursor.isLt
    rw [h.cursor]
    exact this
  -- The two ways to compute the next position.
  have hadv : (if c = 10 then s.cursor + (80 - s.cursor % 80)
      else if c = CGA_BACKSPACE then (if s.cursor > 0 then s.cursor - 1 else s.cursor)
      else s.cursor + 1) = Window.advance c w.cursor := by
    rw [← h.cursor]
    unfold Window.advance
    split_ifs <;> omega
  have hle := Window.advance_le c w.cursor.isLt
  have htype : ∀ j : Fin CELLS, (if c = 10 ∨ c = CGA_BACKSPACE then s.crt
      else Function.update s.crt s.cursor ((c % 256).toNat ||| 0x0b00)) j = w.type c j := by
    intro j
    unfold Window.type
    split_ifs with hc
    · exact h.crt j
    · simp only [Function.update_apply, h.cursor, Fin.val_inj, h.crt j, ← hw]
  unfold Cga.cgaputc
  simp only [hadv]
  generalize hcrt : (if c = 10 ∨ c = CGA_BACKSPACE then s.crt
    else Function.update s.crt s.cursor ((c % 256).toNat ||| 0x0b00)) = crt at htype
  generalize hpos : Window.advance c w.cursor = pos at hle
  simp only [CELLS] at hle
  rw [if_neg (by omega)]
  refine ⟨_, rfl, ?_⟩
  by_cases hlt : pos < CELLS
  · have hputc : w.putc c = ⟨Function.update (w.type c) ⟨pos, hlt⟩ (32 ||| 0x0700), ⟨pos, hlt⟩⟩ := by
      unfold Window.putc
      simp only [hpos, hlt, dite_true]
    rw [hputc]
    simp only [CELLS] at hlt
    have hno : decide (pos / 80 ≥ 23) = false := decide_eq_false (by omega)
    simp only [hno, Bool.false_eq_true, if_false]
    refine h.set (fun j => ?_) (by dsimp only; omega)
    simp only [Function.update_apply, Fin.ext_iff, htype j]
  · have h80 : pos - 80 < CELLS := by simp only [CELLS]; omega
    have hputc : w.putc c = ⟨Function.update (Window.scroll (w.type c)) ⟨pos - 80, h80⟩
        (32 ||| 0x0700), ⟨pos - 80, h80⟩⟩ := by
      unfold Window.putc
      simp only [hpos, hlt, dite_false]
    rw [hputc]
    simp only [CELLS] at hlt
    obtain rfl : pos = 1840 := by omega
    simp only [show decide (1840 / 80 ≥ 23) = true from rfl, if_true]
    refine h.set (fun j => ?_) rfl
    simp only [Function.update_apply, Fin.ext_iff, Cga.memset, Window.scroll]
    have hj := j.isLt
    have hcells : CELLS = 1840 := rfl
    split_ifs
    · rfl
    · omega
    · rfl
    · exact htype ⟨j.val + 80, ‹_›⟩
    all_goals omega

theorem Cga.show_of_lt (cl : ℕ) (cs : List ℕ) {b i : ℕ} (hi : i < b) (crt : ℕ → ℕ) :
    Cga.show cl cs b crt i = crt i := by
  induction cs generalizing b crt with
  | nil => rfl
  | cons c cs ih =>
    rw [Cga.show, ih (by omega), Function.update_of_ne (by omega)]

theorem Cga.titleCells_of_lt (curidx : ℕ) (p : Caller) (crt : ℕ → ℕ) {i : ℕ} (hi : i < 23 * 80) :
    Cga.titleCells curidx p crt i = crt i := by
  have hs := fun cl cs base (crt : ℕ → ℕ) (hb : 23 * 80 ≤ base) =>
    Cga.show_of_lt cl cs (b := base) (i := i) (by omega) crt
  have hu := fun j v (crt : ℕ → ℕ) (hj : 23 * 80 ≤ j) =>
    Function.update_of_ne (show i ≠ j by omega) v crt
  unfold Cga.titleCells
  rw [hu _ _ _ (by omega), hu _ _ _ (by omega), hs _ _ _ _ (by omega), hs _ _ _ _ (by omega),
    hu _ _ _ (by omega), hs _ _ _ _ (by omega), hu _ _ _ (by omega), hs _ _ _ _ (by omega),
    hu _ _ _ (by omega), hs _ _ _ _ (by omega)]
  exact if_neg (by omega)

/-- **`title` leaves the windows alone.** -/
theorem title_shows (h : Shows s d) (p : Caller) : Shows (s.title p) d where
  curidx := h.curidx
  crtflags := h.crtflags
  crt j := (Cga.titleCells_of_lt _ _ _ j.isLt).trans (h.crt j)
  cursor := h.cursor
  crtbufs := h.crtbufs
  poss := h.poss

theorem save_spec (h : Shows s d) (i : Fin MAXWINDOWS) (w : Window) (hw : d.windows i = some w) :
    (∀ j : Fin CELLS, s.save.crtbufs i j = w.screen j) ∧ s.save.poss i = w.cursor := by
  by_cases hi : i = d.current
  · obtain rfl : d.shown = w := by
      have := d.windows_current
      rw [hi, this] at hw
      exact Option.some.inj hw
    have hj : ∀ j : Fin CELLS, j.val < 80 * 23 := fun j => j.isLt
    simp [Cga.save, hi, h.curidx, Cga.crtcpy, hj, h.crt, h.cursor]
  · have hne : i.val ≠ s.curidx := by
      rw [h.curidx]
      exact fun he => hi (Fin.ext he)
    simp only [Cga.save, Function.update_of_ne hne]
    exact ⟨h.crtbufs i w hi hw, h.poss i w hi hw⟩

theorem restore_shows (h : Shows s d) {k : Fin MAXWINDOWS} (ho : (d.windows k).isSome) :
    Shows { s.save with
      curidx := k
      crt := Cga.crtcpy s.save.crt (s.save.crtbufs k)
      cursor := s.save.poss k % 2 ^ 16 } ⟨d.windows, k, ho⟩ := by
  obtain ⟨w, hw⟩ := Option.isSome_iff_exists.mp ho
  have hshown : Desk.shown ⟨d.windows, k, ho⟩ = w := by simp [Desk.shown, hw]
  obtain ⟨hcells, hpos⟩ := save_spec h k w hw
  refine ⟨rfl, h.crtflags, fun j => ?_, ?_, ?_, ?_⟩
  · have hj : j.val < 80 * 23 := j.isLt
    simp only [hshown, Cga.crtcpy, hj, if_true]
    exact hcells j
  · have hlt : w.cursor.val < 2 ^ 16 := w.cursor.isLt.trans (by decide)
    simp only [hshown, hpos]
    exact Nat.mod_eq_of_lt hlt
  · exact fun i v _ hv => (save_spec h i v hv).1
  · exact fun i v _ hv => (save_spec h i v hv).2

theorem free_eq (h : Shows s d) :
    (List.range MAXWINDOWS).find? (fun i => !s.crtflags i) = d.free.map Fin.val := by
  rw [← List.map_coe_finRange_eq_range, List.find?_map, Desk.free]
  congr 2
  funext i
  simp [h.crtflags, Option.not_isSome]

/-- **`splitw` opens a window, shows an open one, or does nothing.** -/
theorem splitw_shows (h : Shows s d) (n : ℤ) (p : Caller) (hn : -1 ≤ n ∧ n < MAXWINDOWS) :
    Shows (s.splitw n p) (d.split n) := by
  have h' : Shows { s with cgaflag := true } d :=
    ⟨h.curidx, h.crtflags, h.crt, h.cursor, h.crtbufs, h.poss⟩
  have hfree := free_eq h'
  have hsave := save_spec h'
  unfold Cga.splitw Desk.split
  simp only at hfree
  by_cases hm : n = -1
  · simp only [hm, if_true, hfree]
    cases hf : d.free with
    | none => exact h'
    | some i =>
      refine title_shows (d := d.new i) ⟨rfl, fun k => ?_, fun j => ?_, ?_, ?_, ?_⟩ p
      · simp only [Desk.new, Function.update_apply, Fin.val_inj]
        split_ifs
        · rfl
        · exact h.crtflags k
      · simp only [Desk.new_shown, Window.empty, Cga.memset]
        exact if_pos ⟨by omega, j.isLt⟩
      · simp [Window.empty]
      · intro k w hk hw
        rw [Desk.new_current] at hk
        exact (hsave k w (by simpa [Desk.new, hk] using hw)).1
      · intro k w hk hw
        rw [Desk.new_current] at hk
        exact (hsave k w (by simpa [Desk.new, hk] using hw)).2
  · have hlt : 0 ≤ n ∧ n.toNat < MAXWINDOWS := by
      simp only [MAXWINDOWS] at hn ⊢
      omega
    have hflag := h.crtflags ⟨n.toNat, hlt.2⟩
    simp only at hflag
    rw [if_neg hm, if_neg hm, dif_pos hlt]
    by_cases ho : (d.windows ⟨n.toNat, hlt.2⟩).isSome = true
    · rw [if_pos ⟨hlt.1, hflag.trans ho⟩, dif_pos ho]
      exact title_shows (restore_shows h' ho) p
    · rw [if_neg fun hf => ho (hflag.symm.trans hf.2), dif_neg ho]
      exact h'

/-- **One step.** -/
theorem cgaStep_shows (h : Shows s d) (e : CgaEvent)
    (he : ∀ n p, e = .splitw n p → -1 ≤ n ∧ n < MAXWINDOWS) :
    ∃ t, cgaStep e s = some t ∧ Shows t (deskStep e d) := by
  cases e with
  | putc c => exact cgaputc_shows h c
  | splitw n p => exact ⟨_, rfl, splitw_shows h n p (he n p rfl)⟩
  | title p => exact ⟨_, rfl, title_shows h p⟩

end Step

/-! ## Runs -/

/-- **Console windows are independent.** Any sequence of outputs, switches and titles runs without a
panic from a state whose cursors are on the screens, and shows at every point what the windows
hold. -/
theorem windows_refine (s : Cga) (hs : s.Ok) (es : List CgaEvent)
    (hes : ∀ (n : ℤ) p, .splitw n p ∈ es → -1 ≤ n ∧ n < MAXWINDOWS) :
    ∃ d, Shows s d ∧ ∀ es₁ es₂, es = es₁ ++ es₂ →
      ∃ t, run cgaStep es₁ s = some t ∧ Shows t (es₁.foldl (fun d e => deskStep e d) d) := by
  obtain ⟨d, hd⟩ := hs.shows
  refine ⟨d, hd, fun es₁ es₂ h => ?_⟩
  have hes₁ : ∀ (n : ℤ) p, .splitw n p ∈ es₁ → -1 ≤ n ∧ n < MAXWINDOWS := fun n p hm =>
    hes n p (h ▸ List.mem_append_left _ hm)
  clear h hes es₂ es
  clear hs
  induction es₁ generalizing s d with
  | nil => exact ⟨s, rfl, hd⟩
  | cons e es₁ ih =>
    obtain ⟨s', hstep, hd'⟩ := cgaStep_shows hd e fun n p he => hes₁ n p (by simp [he])
    obtain ⟨t, hrun, ht⟩ := ih s' _ hd' fun n p hm => hes₁ n p (List.mem_cons_of_mem _ hm)
    exact ⟨t, run_cons.mpr ⟨s', hstep, hrun⟩, ht⟩

/-- A character in window 0, a new window, a character there, and back. -/
theorem windows_refine_switch :
    let p : Caller := ⟨0, 2, 4096, 0⟩
    let s : Cga := ⟨fun _ => 0, 0, fun _ _ => 0, fun _ => 0, fun i => decide (i = 0), 0, false,
      fun _ => 0⟩
    let es : List CgaEvent := [.putc 65, .splitw (-1) p, .putc 66, .splitw 0 p]
    ∃ d, Shows s d ∧ ∀ es₁ es₂, es = es₁ ++ es₂ →
      ∃ t, run cgaStep es₁ s = some t ∧ Shows t (es₁.foldl (fun d e => deskStep e d) d) := by
  intro p s es
  refine windows_refine s (Cga.Ok.consoleinit rfl (by decide) fun _ => rfl) es ?_
  intro n q hn
  simp only [es, List.mem_cons, CgaEvent.splitw.injEq, reduceCtorEq, List.not_mem_nil] at hn
  obtain h | ⟨rfl, -⟩ | h | ⟨rfl, -⟩ | h := hn
  · exact h.elim
  · decide
  · exact h.elim
  · decide
  · exact h.elim

end OsPlayground
