import OsPlayground.Console.Windows
import OsPlayground.Lib.Terminal
import OsPlayground.Lib.Words

/-!
# `cgaputc` as a terminal

* `memmove`, `memset` of `string.c`, `outb`, `inb`, `cgaputc`: as the code does it, byte by byte. A log
  keeps the addresses that are written.
* `wrote_memmove`, `wrote_memset`: what the loops do.
* `cgaputc_eq`: the cells that the bytes make up are those of the model of the windows.
* `put`, `cgaputc_spec`: one character on a terminal of 23 rows.
* **`cgaputcs_terminal`**: any characters.
-/

namespace OsPlayground

open Lib

namespace Cga

/-! ## The code -/

/-- The machine: memory and the addresses that were written, and the CRT controller. -/
structure Hw where
  mem : Bytes
  written : List ℕ
  /-- The register that the port `CRTPORT` selects. -/
  index : ℕ
  regs : ℕ → BitVec 8

namespace Hw

/-- `*a = v` for a `uchar`. -/
def poke (a v : ℕ) (h : Hw) : Hw := { h with mem := Function.update h.mem a v, written := a :: h.written }

/-- `while(n-- > 0) *d++ = *s++;` -/
def copyUp : ℕ → ℕ → ℕ → Hw → Hw
  | 0, _, _, h => h
  | n + 1, d, s, h => copyUp n (d + 1) (s + 1) (h.poke d (h.mem s))

/-- `while(n-- > 0) *--d = *--s;`, where `d` and `s` are `n` bytes after these. -/
def copyDown : ℕ → ℕ → ℕ → Hw → Hw
  | 0, _, _, h => h
  | n + 1, d, s, h => copyDown n d s (h.poke (d + n) (h.mem (s + n)))

/-- `memmove` -/
def memmove (dst src n : ℕ) (h : Hw) : Hw :=
  if src < dst ∧ dst < src + n then copyDown n dst src h else copyUp n dst src h

/-- `stosb` -/
def stosb : ℕ → ℕ → ℕ → Hw → Hw
  | 0, _, _, h => h
  | n + 1, a, v, h => stosb n (a + 1) v (h.poke a (v % 256))

/-- `stosl` -/
def stosl : ℕ → ℕ → ℕ → Hw → Hw
  | 0, _, _, h => h
  | n + 1, a, v, h => stosl n (a + 4) v ((((h.poke a (byteOf v 0)).poke (a + 1) (byteOf v 1)).poke
      (a + 2) (byteOf v 2)).poke (a + 3) (byteOf v 3))

/-- `memset` -/
def memset (dst c n : ℕ) (h : Hw) : Hw :=
  if dst % 4 = 0 ∧ n % 4 = 0 then
    let c := c % 256
    stosl (n / 4) dst (c <<< 24 ||| c <<< 16 ||| c <<< 8 ||| c) h
  else stosb n dst c h

/-- `outb(CRTPORT, v)` and `outb(CRTPORT+1, v)`. -/
def outIndex (v : ℕ) (h : Hw) : Hw := { h with index := v }

/-- `outb(CRTPORT + 1, v)`, to the register that is selected. -/
def outData (v : ℕ) (h : Hw) : Hw := { h with regs := Function.update h.regs h.index (BitVec.ofNat 8 v) }

/-- `inb(CRTPORT+1)` -/
def inData (h : Hw) : ℕ := (h.regs h.index).toNat

/-- `P2V(0xb8000)` -/
abbrev CRT : ℕ := 0x800b8000

/-- `crt[i] = v` for a `ushort`. -/
def setCell (i v : ℕ) (h : Hw) : Hw :=
  (h.poke (CRT + 2 * i) (byteOf v 0)).poke (CRT + 2 * i + 1) (byteOf v 1)

/-- `crt[i]` -/
def cells (h : Hw) (i : ℕ) : ℕ := getLE h.mem (CRT + 2 * i) 2

/-- The branches of `cgaputc`: the screen. -/
def typed (c : ℤ) (pos : ℕ) (h : Hw) : Hw :=
  if c = 10 ∨ c = CGA_BACKSPACE then h else h.setCell pos ((c % 256).toNat ||| 0x0b00)

/-- The branches of `cgaputc`: `pos`. -/
def moved (c : ℤ) (pos : ℕ) : ℕ :=
  if c = 10 then pos + (80 - pos % 80)
  else if c = CGA_BACKSPACE then (if pos > 0 then pos - 1 else pos)
  else pos + 1

/-- The scrolling of `cgaputc`, with the new `pos`. -/
def scroll (pos : ℕ) (h : Hw) : Hw :=
  (h.memmove CRT (CRT + 2 * 80) (2 * 22 * 80)).memset (CRT + 2 * pos) 0 (2 * (23 * 80 - pos))

/-- `cgaputc` between the reads and the writes of the cursor. -/
def putScreen (c : ℤ) (pos : ℕ) (h : Hw) : Option (ℕ × Hw) :=
  let h := typed c pos h
  let pos := moved c pos
  if pos > 24 * 80 then none
  else if pos / 80 ≥ 23 then some (pos - 80, scroll (pos - 80) h)
  else some (pos, h)

/-- `cgaputc` of the `int` `c`; a panic is `none`. -/
def cgaputc (c : ℤ) (h : Hw) : Option Hw :=
  let h := h.outIndex 14
  let pos := h.inData <<< 8
  let h := h.outIndex 15
  let pos := pos ||| h.inData
  match putScreen c pos h with
  | none => none
  | some (pos, h) =>
    let h := (h.outIndex 14).outData (pos >>> 8)
    let h := (h.outIndex 15).outData pos
    some (h.setCell pos (32 ||| 0x0700))

/-- One call after another. -/
def cgaputcs : List ℤ → Hw → Option Hw
  | [], h => some h
  | c :: cs, h =>
    match cgaputc c h with
    | none => none
    | some h => cgaputcs cs h

/-- The cursor that the controller shows. -/
def pos (h : Hw) : ℕ := (h.regs 14).toNat * 256 + (h.regs 15).toNat

/-! ## Memory -/

section Memory

variable {h h' : Hw} {n d s a v i : ℕ}

theorem poke_mem : (h.poke a v).mem = Function.update h.mem a v := rfl

theorem poke_written : (h.poke a v).written = a :: h.written := rfl

/-- What an operation on the range `[a, a + n)` of memory does: the bytes there are those of `f`. -/
structure Wrote (h : Hw) (a n : ℕ) (f : Bytes) (h' : Hw) : Prop where
  mem : ∀ i, h'.mem i = if a ≤ i ∧ i < a + n then f i else h.mem i
  written : ∀ i ∈ h'.written, i ∈ h.written ∨ a ≤ i ∧ i < a + n
  index : h'.index = h.index
  regs : h'.regs = h.regs

theorem Wrote.nil (h : Hw) (a : ℕ) (f : Bytes) : Wrote h a 0 f h :=
  ⟨fun i => by rw [if_neg (by omega)], fun i hi => Or.inl hi, rfl, rfl⟩

theorem wrote_poke (h : Hw) (a v : ℕ) : Wrote h a 1 (fun _ => v) (h.poke a v) := by
  refine ⟨fun i => ?_, fun i hi => ?_, rfl, rfl⟩
  · rw [poke_mem, Function.update_apply]
    exact if_congr (by omega) rfl rfl
  · rw [poke_written, List.mem_cons] at hi
    exact hi.symm.imp id fun he => by omega

theorem Wrote.union {b m c k : ℕ} {f : Bytes} {h₁ h₂ : Hw} (hf : Wrote h a n f h₁)
    (hg : Wrote h₁ b m f h₂)
    (hc : ∀ i, c ≤ i ∧ i < c + k ↔ (a ≤ i ∧ i < a + n) ∨ b ≤ i ∧ i < b + m) :
    Wrote h c k f h₂ := by
  refine ⟨fun i => ?_, fun i hi => ?_, hg.index.trans hf.index, hg.regs.trans hf.regs⟩
  · rw [hg.mem, hf.mem, ← ite_or]
    exact if_congr ((hc i).trans or_comm).symm rfl rfl
  · rw [hc]
    rcases hg.written i hi with hi | hi
    · exact (hf.written i hi).imp id Or.inl
    · exact Or.inr (Or.inr hi)

theorem Wrote.append {m : ℕ} {f : Bytes} {h₁ h₂ : Hw} (hf : Wrote h a n f h₁)
    (hg : Wrote h₁ (a + n) m f h₂) : Wrote h a (n + m) f h₂ :=
  hf.union hg fun i => by omega

theorem Wrote.congr {f g : Bytes} (hf : Wrote h a n f h') (hfg : ∀ i, a ≤ i → i < a + n → f i = g i) :
    Wrote h a n g h' := by
  refine ⟨fun i => ?_, hf.written, hf.index, hf.regs⟩
  rw [hf.mem]
  split_ifs with hi
  · exact hfg i hi.1 hi.2
  · rfl

theorem wrote_copyUp (hsd : d ≤ s ∨ s + n ≤ d) :
    Wrote h d n (fun i => h.mem (s + (i - d))) (copyUp n d s h) := by
  induction n generalizing d s h with
  | zero => exact Wrote.nil _ _ _
  | succ n ih =>
    rw [copyUp, Nat.add_comm n 1]
    refine Wrote.append ((wrote_poke h d (h.mem s)).congr fun i h₁ h₂ => ?_)
      ((ih (by omega)).congr fun i h₁ h₂ => ?_)
    · rw [show s + (i - d) = s by omega]
    · rw [poke_mem, Function.update_of_ne (by omega), show s + 1 + (i - (d + 1)) = s + (i - d) by omega]

theorem Wrote.prepend {m : ℕ} {f : Bytes} {h₁ h₂ : Hw} (hf : Wrote h (a + n) m f h₁)
    (hg : Wrote h₁ a n f h₂) : Wrote h a (n + m) f h₂ :=
  hf.union hg fun i => by omega

theorem wrote_copyDown (hsd : s ≤ d) :
    Wrote h d n (fun i => h.mem (s + (i - d))) (copyDown n d s h) := by
  induction n generalizing h with
  | zero => exact Wrote.nil _ _ _
  | succ n ih =>
    rw [copyDown]
    refine Wrote.prepend ((wrote_poke h (d + n) (h.mem (s + n))).congr fun i h₁ h₂ => ?_)
      (ih.congr fun i h₁ h₂ => ?_)
    · rw [show s + (i - d) = s + n by omega]
    · rw [poke_mem, Function.update_of_ne (by omega)]

/-- **`memmove`** moves the bytes as they were, however the ranges overlap. -/
theorem wrote_memmove (d s n : ℕ) (h : Hw) :
    Wrote h d n (fun i => h.mem (s + (i - d))) (h.memmove d s n) := by
  rw [memmove]
  split_ifs with hover
  · exact wrote_copyDown (by omega)
  · exact wrote_copyUp (by omega)

theorem wrote_stosb : Wrote h a n (fun _ => v % 256) (stosb n a v h) := by
  induction n generalizing a h with
  | zero => exact Wrote.nil _ _ _
  | succ n ih =>
    rw [stosb, Nat.add_comm n 1]
    exact (wrote_poke h a (v % 256)).append ih

theorem wrote_stosl : Wrote h a (4 * n) (fun _ => 0) (stosl n a 0 h) := by
  have hz : ∀ j, byteOf 0 j = 0 := fun j => by rw [byteOf, Nat.zero_div]
  induction n generalizing a h with
  | zero => exact Wrote.nil _ _ _
  | succ n ih =>
    have hfour : 4 * (n + 1) = 1 + 1 + 1 + 1 + 4 * n := by omega
    rw [stosl, hz, hz, hz, hz, hfour]
    exact ((((wrote_poke h a 0).append (wrote_poke _ _ 0)).append (wrote_poke _ _ 0)).append
      (wrote_poke _ _ 0)).append ih

theorem wrote_memset (a n : ℕ) (h : Hw) : Wrote h a n (fun _ => 0) (h.memset a 0 n) := by
  rw [memset]
  split_ifs with hal
  · have hn : n = 4 * (n / 4) := by omega
    have hw := wrote_stosl (h := h) (a := a) (n := n / 4)
    rwa [← hn] at hw
  · exact wrote_stosb (v := 0)

end Memory

/-! ## Cells -/

section Cells

variable {h h' : Hw} {p k v : ℕ} {f : Bytes} {c : ℤ}

theorem Wrote.cells (hw : Wrote h (CRT + 2 * p) (2 * k) f h') :
    h'.cells = fun i => if p ≤ i ∧ i < p + k then getLE f (CRT + 2 * i) 2 else h.cells i := by
  funext i
  split_ifs with hi
  · exact getLE_congr fun j h₁ h₂ => by rw [hw.mem, if_pos (by omega)]
  · exact getLE_congr fun j h₁ h₂ => by rw [hw.mem, if_neg (by omega)]

theorem wrote_setCell (h : Hw) (p v : ℕ) : Wrote h (CRT + 2 * p) (2 * 1)
    (fun i => byteOf v (i - (CRT + 2 * p))) (h.setCell p v) := by
  refine Wrote.append (n := 1) (m := 1) ((wrote_poke h _ _).congr fun i h₁ h₂ => ?_)
    ((wrote_poke _ _ _).congr fun i h₁ h₂ => ?_)
  · rw [show i - (CRT + 2 * p) = 0 by omega]
  · rw [show i - (CRT + 2 * p) = 1 by omega]

theorem cells_setCell (hv : v < 65536) (h : Hw) (p : ℕ) :
    (h.setCell p v).cells = Function.update h.cells p v := by
  rw [(wrote_setCell h p v).cells]
  funext i
  rw [Function.update_apply]
  by_cases hi : i = p
  · subst hi
    rw [if_pos (by omega), if_pos rfl]
    refine getLE_of_bytes (n := 2) hv fun j hj => ?_
    rw [Nat.add_sub_cancel_left]
  · rw [if_neg (by omega), if_neg hi]

theorem wrote_rows (h : Hw) : Wrote h (CRT + 2 * 0) (2 * (22 * 80))
    (fun i => h.mem (CRT + 2 * 80 + (i - CRT))) (h.memmove CRT (CRT + 2 * 80) (2 * 22 * 80)) :=
  wrote_memmove _ _ _ h

theorem cells_memmove (h : Hw) :
    (h.memmove CRT (CRT + 2 * 80) (2 * 22 * 80)).cells =
      fun i => if i < 22 * 80 then h.cells (i + 80) else h.cells i := by
  rw [(wrote_rows h).cells]
  funext i
  refine if_congr (by omega) ?_ rfl
  simp only [Hw.cells, getLE]
  rw [show CRT + 2 * 80 + (CRT + 2 * i - CRT) = CRT + 2 * (i + 80) by omega,
    show CRT + 2 * 80 + (CRT + 2 * i + 1 - CRT) = CRT + 2 * (i + 80) + 1 by omega]

theorem cells_memset (hp : p ≤ 23 * 80) (h : Hw) :
    (h.memset (CRT + 2 * p) 0 (2 * (23 * 80 - p))).cells = Cga.memset p (23 * 80) 0 h.cells := by
  rw [(wrote_memset (CRT + 2 * p) (2 * (23 * 80 - p)) h).cells]
  funext i
  rw [Cga.memset]
  refine if_congr (by omega) ?_ rfl
  exact getLE_of_zero fun _ _ _ => rfl

theorem glyph_lt (c : ℤ) : ((c % 256).toNat ||| 0x0b00) < 65536 :=
  Nat.or_lt_two_pow (n := 16) (by omega) (by decide)

/-- The memory and the log outside rows 0 to 22. -/
structure Inside (h h' : Hw) : Prop where
  mem : ∀ a, ¬ (CRT ≤ a ∧ a < CRT + 2 * (23 * 80)) → h'.mem a = h.mem a
  written : ∀ a ∈ h'.written, a ∈ h.written ∨ CRT ≤ a ∧ a < CRT + 2 * (23 * 80)

theorem Inside.trans {h₁ h₂ h₃ : Hw} (h₁₂ : Inside h₁ h₂) (h₂₃ : Inside h₂ h₃) : Inside h₁ h₃ :=
  ⟨fun a ha => (h₂₃.mem a ha).trans (h₁₂.mem a ha),
    fun a ha => (h₂₃.written a ha).elim (h₁₂.written a) Or.inr⟩

theorem Wrote.inside (hw : Wrote h (CRT + 2 * p) (2 * k) f h') (hk : p + k ≤ 23 * 80) : Inside h h' :=
  ⟨fun a ha => by rw [hw.mem, if_neg (by omega)],
    fun a ha => (hw.written a ha).imp id fun hi => by omega⟩

theorem typed_inside (hp : p < 23 * 80) (c : ℤ) (h : Hw) : Inside h (typed c p h) := by
  rw [typed]
  split_ifs
  · exact ⟨fun _ _ => rfl, fun _ => Or.inl⟩
  · exact (wrote_setCell h p _).inside (by omega)

theorem scroll_inside (hp : p ≤ 23 * 80) (h : Hw) : Inside h (scroll p h) :=
  ((wrote_rows h).inside (by omega)).trans ((wrote_memset _ _ _).inside (by omega))

theorem cells_typed (c : ℤ) (p : ℕ) (h : Hw) : (typed c p h).cells =
    if c = 10 ∨ c = CGA_BACKSPACE then h.cells
    else Function.update h.cells p ((c % 256).toNat ||| 0x0b00) := by
  rw [typed]
  split_ifs
  · rfl
  · exact cells_setCell (glyph_lt c) h p

theorem cells_scroll (hp : p ≤ 23 * 80) (h : Hw) : (scroll p h).cells =
    Cga.memset p (23 * 80) 0 fun i => if i < 22 * 80 then h.cells (i + 80) else h.cells i := by
  rw [scroll, cells_memset hp, cells_memmove]

theorem read_pos (h : Hw) :
    (h.outIndex 14).inData <<< 8 ||| ((h.outIndex 14).outIndex 15).inData = h.pos := by
  have hlt : (h.regs 15).toNat < 2 ^ 8 := (h.regs 15).isLt
  have hor := Nat.shiftLeft_add_eq_or_of_lt hlt (h.regs 14).toNat
  have hpos : h.pos = (h.regs 14).toNat <<< 8 + (h.regs 15).toNat := by
    rw [pos, Nat.shiftLeft_eq]
  rw [hpos, hor]
  rfl

/-- The end of `cgaputc`: the cursor is written, and the cell under it. -/
def putCursor (p : ℕ) (h : Hw) : Hw :=
  ((((h.outIndex 14).outData (p >>> 8)).outIndex 15).outData p).setCell p (32 ||| 0x0700)

theorem cells_putCursor (p : ℕ) (h : Hw) :
    (putCursor p h).cells = Function.update h.cells p (32 ||| 0x0700) :=
  cells_setCell (by decide) _ p

theorem pos_putCursor (p : ℕ) (h : Hw) : (putCursor p h).pos = p % 2 ^ 16 := by
  have h14 : (putCursor p h).regs 14 = BitVec.ofNat 8 (p >>> 8) := rfl
  have h15 : (putCursor p h).regs 15 = BitVec.ofNat 8 p := rfl
  rw [pos, h14, h15, BitVec.toNat_ofNat, BitVec.toNat_ofNat, Nat.shiftRight_eq_div_pow]
  omega

theorem putCursor_inside (hp : p < 23 * 80) (h : Hw) : Inside h (putCursor p h) := by
  have hw := (wrote_setCell ((((h.outIndex 14).outData (p >>> 8)).outIndex 15).outData p) p
    (32 ||| 0x0700)).inside (by omega)
  exact ⟨hw.mem, hw.written⟩

/-- The machine when the cursor has been read. -/
abbrev started (h : Hw) : Hw := (h.outIndex 14).outIndex 15

theorem cgaputc_unfold (c : ℤ) (h : Hw) :
    cgaputc c h = (putScreen c h.pos h.started).map fun r => putCursor r.1 r.2 := by
  rw [cgaputc]
  dsimp only
  rw [read_pos]
  cases putScreen c h.pos h.started <;> rfl

/-- **The bytes that `cgaputc` writes make up the cells** of the other model. -/
theorem cgaputc_eq (c : ℤ) {h : Hw} {s : Cga} (hcrt : s.crt = h.cells) (hcur : s.cursor = h.pos) :
    (cgaputc c h).map (fun h => (h.cells, h.pos)) = (s.cgaputc c).map fun s => (s.crt, s.cursor) := by
  have hmoved : moved c h.pos = if c = 10 then h.pos + (80 - h.pos % 80)
    else if c = CGA_BACKSPACE then (if h.pos > 0 then h.pos - 1 else h.pos) else h.pos + 1 := rfl
  have htyped : (typed c h.pos h.started).cells = if c = 10 ∨ c = CGA_BACKSPACE then h.cells
    else Function.update h.cells h.pos ((c % 256).toNat ||| 0x0b00) := cells_typed c h.pos h.started
  rw [cgaputc_unfold, Cga.cgaputc, hcrt, hcur, putScreen]
  dsimp only
  rw [← hmoved, ← htyped]
  by_cases hover : moved c h.pos > 24 * 80
  · rw [if_pos hover, if_pos hover]
    rfl
  · rw [if_neg hover, if_neg hover]
    by_cases hscroll : moved c h.pos / 80 ≥ 23
    · have hp : moved c h.pos - 80 ≤ 23 * 80 := by omega
      simp only [hscroll, decide_true, if_true, Option.map_some, cells_putCursor, pos_putCursor,
        cells_scroll hp]
    · simp only [hscroll, decide_false, if_false, Option.map_some, cells_putCursor, pos_putCursor,
        Bool.false_eq_true]

end Cells

/-! ## The terminal -/

/-- One character on a terminal: the cell under the cursor is blank afterwards. -/
def put (c : ℤ) (t : Terminal 23 80 ℕ) : Terminal 23 80 ℕ :=
  (if c = 10 then t.lineFeed 0
    else if c = CGA_BACKSPACE then t.backspace
    else t.print 0 ((c % 256).toNat ||| 0x0b00)).mark (32 ||| 0x0700)

section Steps

variable {h : Hw} {t : Terminal 23 80 ℕ} {p : ℕ}

open Terminal

/-- The screen and the cursor before the cell under it is made blank, without and with scrolling. -/
theorem putScreen_spec (c : ℤ) (hs : Displays h.cells p t) :
    ∃ p' h', putScreen c p h = some (p', h') ∧ Inside h h' ∧ Displays h'.cells p'
      (if c = 10 then t.lineFeed 0
        else if c = CGA_BACKSPACE then t.backspace
        else t.print 0 ((c % 256).toNat ||| 0x0b00)) := by
  have hlt : p < 80 * 23 := hs.pos_lt
  have hrow := t.row.2
  have hcol := t.col.2
  have hin := typed_inside (by omega : p < 23 * 80) c h
  have hcells := cells_typed c p h
  have hpos := hs.pos
  -- the next line, from any screen with the cursor in the row of `t`
  have hfeed : ∀ (h₁ : Hw) (t₁ : Terminal 23 80 ℕ), Inside h h₁ → Displays h₁.cells p t₁ → t₁.row = t.row →
      moved c p = 80 * t.row + 80 → typed c p h = h₁ → ∃ p' h', putScreen c p h = some (p', h') ∧
        Inside h h' ∧ Displays h'.cells p' (t₁.lineFeed 0) := by
    intro h₁ t₁ hin₁ hs₁ hr hm ht
    obtain ⟨hnext, hroll⟩ := displays_lineFeed 0 hs₁
    rw [hr] at hnext hroll
    rw [putScreen, hm, ht]
    rw [if_neg (by omega)]
    by_cases hend : 80 * (t.row : ℕ) + 80 < 80 * 23
    · rw [if_neg (by omega)]
      exact ⟨_, _, rfl, hin₁, hnext hend⟩
    · have hlast : 80 * (t.row : ℕ) + 80 = 80 * 23 := by omega
      rw [if_pos (by omega)]
      have hp' : 80 * (t.row : ℕ) + 80 - 80 = 80 * 23 - 80 := by omega
      rw [hp']
      refine ⟨_, _, rfl, hin₁.trans (scroll_inside (by omega) _), ?_⟩
      refine (hroll hlast).congr fun i hi => ?_
      rw [cells_scroll (by omega), Cga.memset]
      split_ifs <;> first | rfl | omega
  by_cases hc10 : c = 10
  · subst hc10
    simp only [if_true]
    refine hfeed h t ⟨fun _ _ => rfl, fun _ => Or.inl⟩ hs rfl ?_ ?_
    · rw [moved, if_pos rfl]
      omega
    · rw [typed, if_pos (Or.inl rfl)]
  by_cases hback : c = CGA_BACKSPACE
  · rw [if_neg hc10, if_pos hback]
    have hm : moved c p = p - 1 := by
      rw [moved, if_neg hc10, if_pos hback]
      split_ifs <;> omega
    have ht : typed c p h = h := by rw [typed, if_pos (Or.inr hback)]
    rw [putScreen, hm, ht]
    rw [if_neg (by omega), if_neg (by omega)]
    exact ⟨_, _, rfl, ⟨fun _ _ => rfl, fun _ => Or.inl⟩, displays_backspace hs⟩
  · rw [if_neg hc10, if_neg hback]
    have hm : moved c p = p + 1 := by rw [moved, if_neg hc10, if_neg hback]
    rw [if_neg (by rintro (h | h); exacts [hc10 h, hback h])] at hcells
    have hmark := displays_mark hs ((c % 256).toNat ||| 0x0b00)
    rw [← hcells] at hmark
    by_cases hwrap : p + 1 < 80 * (t.row : ℕ) + 80
    · rw [putScreen, hm]
      rw [if_neg (by omega), if_neg (by omega)]
      exact ⟨_, _, rfl, hin, displays_advance hmark hwrap⟩
    · have hwrap' : p + 1 = 80 * (t.row : ℕ) + 80 := by omega
      rw [print, advance_lineFeed hmark hwrap']
      exact hfeed _ _ hin hmark rfl (by omega) rfl

/-- **One character.** -/
theorem cgaputc_spec (c : ℤ) (hs : Displays h.cells h.pos t) :
    ∃ h', cgaputc c h = some h' ∧ Inside h h' ∧ Displays h'.cells h'.pos (put c t) := by
  obtain ⟨p', h₁, hput, hin, hs₁⟩ := putScreen_spec (h := h.started) c hs
  have hlt : p' < 80 * 23 := hs₁.pos_lt
  refine ⟨putCursor p' h₁, ?_, ?_, ?_⟩
  · rw [cgaputc_unfold, hput]
    rfl
  · exact Inside.trans ⟨hin.mem, hin.written⟩ (putCursor_inside (by omega) h₁)
  · have hmod : p' % 2 ^ 16 = p' := Nat.mod_eq_of_lt (by omega)
    rw [cells_putCursor, pos_putCursor, hmod]
    exact displays_mark hs₁ _

theorem cgaputcs_spec (cs : List ℤ) (hs : Displays h.cells h.pos t) :
    ∃ h', cgaputcs cs h = some h' ∧ Inside h h' ∧
      Displays h'.cells h'.pos (cs.foldl (fun t c => put c t) t) := by
  induction cs generalizing h t with
  | nil => exact ⟨h, rfl, ⟨fun _ _ => rfl, fun _ => Or.inl⟩, hs⟩
  | cons c cs ih =>
    obtain ⟨h₁, hput, hin, hs₁⟩ := cgaputc_spec c hs
    obtain ⟨h', hrun, hin', hs'⟩ := ih hs₁
    refine ⟨h', ?_, hin.trans hin', hs'⟩
    rw [cgaputcs, hput]
    exact hrun

/-- **The terminal keeps to its 23 rows.** From a cursor on them the screen and the cursor show a
terminal; after any characters there was no panic, the cursor is on these rows, nothing else was
written, and screen and cursor show that terminal after the characters. -/
theorem cgaputcs_terminal (hp : h.pos < 23 * 80) :
    ∃ t : Terminal 23 80 ℕ, Displays h.cells h.pos t ∧ ∀ cs : List ℤ, ∃ h', cgaputcs cs h = some h' ∧
      h'.pos < 23 * 80 ∧ (∀ a ∈ h'.written, a ∈ h.written ∨ CRT ≤ a ∧ a < CRT + 2 * (23 * 80)) ∧
      (∀ i, 23 * 80 ≤ i → h'.cells i = h.cells i) ∧
      Displays h'.cells h'.pos (cs.foldl (fun t c => put c t) t) := by
  obtain ⟨t, hs⟩ := exists_shows (R := 23) (C := 80) h.cells hp
  refine ⟨t, hs, fun cs => ?_⟩
  obtain ⟨h', hrun, hin, hs'⟩ := cgaputcs_spec cs hs
  refine ⟨h', hrun, hs'.pos_lt, hin.written, fun i hi => ?_, hs'⟩
  exact getLE_congr fun a h₁ _ => hin.mem a (by omega)

/-- A black screen with the cursor in its corner. -/
theorem cgaputcs_terminal_start : ∃ t : Terminal 23 80 ℕ,
    Displays (⟨fun _ => 0, [], 0, fun _ => 0⟩ : Hw).cells (⟨fun _ => 0, [], 0, fun _ => 0⟩ : Hw).pos t ∧
      ∀ cs : List ℤ, ∃ h', cgaputcs cs ⟨fun _ => 0, [], 0, fun _ => 0⟩ = some h' ∧ h'.pos < 23 * 80 ∧
        (∀ a ∈ h'.written, a ∈ (⟨fun _ => 0, [], 0, fun _ => 0⟩ : Hw).written ∨
          CRT ≤ a ∧ a < CRT + 2 * (23 * 80)) ∧
        (∀ i, 23 * 80 ≤ i → h'.cells i = (⟨fun _ => 0, [], 0, fun _ => 0⟩ : Hw).cells i) ∧
        Displays h'.cells h'.pos (cs.foldl (fun t c => put c t) t) :=
  cgaputcs_terminal (by decide)

end Steps

end Hw

end Cga

end OsPlayground
