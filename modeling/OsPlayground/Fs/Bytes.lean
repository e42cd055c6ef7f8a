import OsPlayground.Fs.Sound

/-!
# Inodes are byte files

A file is a list of bytes; `overwrite` replaces bytes of it and appends behind its end.

* `Call.spec`, `specAll`: what calls of `readi` and `writei` do to a file, on its bytes alone.
* `exec_step`: one call of the code does this, and leaves the other files alone.
* **`execAll_spec`**: so does every sequence of calls, unless the disk is too full.
-/

namespace OsPlayground

namespace Fs

open Lib

/-! ## Files as lists -/

/-- Replace the bytes from `off` on by those of `src`, or append. -/
def overwrite (c : List ℕ) (off : ℕ) (src : List ℕ) : List ℕ :=
  c.take off ++ src ++ c.drop (off + src.length)

section Overwrite

variable {c src : List ℕ} {off : ℕ}

theorem length_overwrite (h : off ≤ c.length) :
    (overwrite c off src).length = max c.length (off + src.length) := by
  rw [overwrite, List.length_append, List.length_append, List.length_take, List.length_drop]
  omega

theorem getD_overwrite (h : off ≤ c.length) (o : ℕ) : (overwrite c off src).getD o 0 =
    if off ≤ o ∧ o < off + src.length then src.getD (o - off) 0 else c.getD o 0 := by
  have hlen : (c.take off ++ src).length = off + src.length := by
    rw [List.length_append, List.length_take, min_eq_left h]
  unfold overwrite
  simp only [List.getD_eq_getElem?_getD]
  by_cases h₁ : o < off + src.length
  · rw [List.getElem?_append_left (by omega)]
    by_cases h₂ : o < off
    · rw [List.getElem?_append_left (by rw [List.length_take]; omega), List.getElem?_take_of_lt h₂,
        if_neg (by omega)]
    · rw [List.getElem?_append_right (by rw [List.length_take]; omega), List.length_take,
        min_eq_left h, if_pos ⟨by omega, h₁⟩]
  · rw [List.getElem?_append_right (by omega), hlen, List.getElem?_drop, if_neg (by omega)]
    congr 2
    omega

theorem overwrite_map {size : ℕ} {f f' : ℕ → ℕ} (h : off ≤ size)
    (hf : ∀ o < max size (off + src.length),
      f' o = if off ≤ o ∧ o < off + src.length then src.getD (o - off) 0 else f o) :
    (List.range (max size (off + src.length))).map f' =
      overwrite ((List.range size).map f) off src := by
  have hlen : ((List.range size).map f).length = size := by simp
  refine List.ext_getElem ?_ fun o h₁ h₂ => ?_
  · rw [length_overwrite (by rwa [hlen]), hlen]
    simp
  · rw [List.length_map, List.length_range] at h₁
    rw [← List.getD_eq_getElem _ 0 h₂, getD_overwrite (by rwa [hlen]), List.getElem_map,
      List.getElem_range, hf o h₁]
    refine if_ctx_congr Iff.rfl (fun _ => rfl) fun hne => ?_
    have ho : o < size := by omega
    rw [List.getD_eq_getElem _ 0 (by rwa [hlen]), List.getElem_map, List.getElem_range]

end Overwrite

/-- A call of `readi` or of `writei`. -/
inductive Call
  | read (off n : ℕ)
  | write (off : ℕ) (src : List ℕ)

namespace Call

/-- The arguments are 32 bits wide. -/
def Words : Call → Prop
  | read off n => off < 2 ^ 32 ∧ n < 2 ^ 32
  | write off src => off < 2 ^ 32 ∧ src.length < 2 ^ 32

/-- The call on a file with the contents `c`. -/
def spec : Call → List ℕ → Reply × List ℕ
  | read off n, c =>
    if off > c.length ∨ 2 ^ 32 ≤ off + n then (.failed, c) else (.read ((c.drop off).take n), c)
  | write off src, c =>
    if off > c.length ∨ 2 ^ 32 ≤ off + src.length ∨ off + src.length > MAXFILE * BSIZE then
      (.failed, c)
    else (.written src.length, overwrite c off src)

/-- The call on the inode `inum`. -/
def exec (inum : ℕ) : Call → Store → Except String (Reply × Store)
  | read off n, fs => readi inum off n fs
  | write off src, fs => writei inum off src fs

end Call

/-- The calls on a sequence of bytes, one after the other. -/
def specAll : List Call → List ℕ → List Reply × List ℕ
  | [], c => ([], c)
  | call :: calls, c =>
    ((call.spec c).1 :: (specAll calls (call.spec c).2).1, (specAll calls (call.spec c).2).2)

/-- The same calls on the disk. -/
def execAll (inum : ℕ) : List Call → Store → Except String (List Reply × Store)
  | [], fs => .ok ([], fs)
  | call :: calls, fs =>
    (call.exec inum fs).bind fun (r, fs) =>
      (execAll inum calls fs).map fun (rs, fs) => (r :: rs, fs)

/-! ## The code -/

variable {fs fs' fs'' : Store} {inum i : ℕ} {call : Call} {calls : List Call}

/-- What every call on the inode `inum` keeps. -/
structure Kept (fs fs' : Store) (inum : ℕ) : Prop where
  sound : Sound fs'
  sb : fs'.sb = fs.sb
  cached : (fs'.mem inum).isSome = true
  type : (fs'.ip inum).type = (fs.ip inum).type
  other : ∀ i < fs.sb.ninodes, i ≠ inum → fs'.ip i = fs.ip i ∧ fs'.content i = fs.content i
  spend : fs'.free + fs.absent inum = fs.free + fs'.absent inum

theorem Kept.refl (h : Sound fs) (hc : (fs.mem inum).isSome = true) : Kept fs fs inum :=
  ⟨h, rfl, hc, rfl, fun _ _ _ => ⟨rfl, rfl⟩, rfl⟩

theorem Kept.trans (h : Kept fs fs' inum) (h' : Kept fs' fs'' inum) : Kept fs fs'' inum := by
  refine ⟨h'.sound, h'.sb.trans h.sb, h'.cached, h'.type.trans h.type, fun i hi hne => ?_, ?_⟩
  · obtain ⟨h₁, h₂⟩ := h.other i hi hne
    obtain ⟨h₁', h₂'⟩ := h'.other i (h.sb ▸ hi) hne
    exact ⟨h₁'.trans h₁, h₂'.trans h₂⟩
  · have h₁ := h.spend
    have h₂ := h'.spend
    omega

theorem Store.length_content (fs : Store) (i : ℕ) : (fs.content i).length = (fs.ip i).size := by
  simp [content]

theorem Store.take_content (fs : Store) (i off n : ℕ) : ((fs.content i).drop off).take n =
    (List.range' off (min n ((fs.ip i).size - off))).map (fs.byte i) := by
  refine List.ext_getElem ?_ fun o h₁ h₂ => ?_
  · simp [content]
  · simp [content]

theorem content_congr (h : Sound fs) (hi : i < fs.sb.ninodes) (hip : fs'.ip i = fs.ip i)
    (hblock : ∀ bn < MAXFILE, fs'.block i bn = fs.block i bn) : fs'.content i = fs.content i := by
  unfold Store.content
  rw [hip]
  refine List.map_congr_left fun o ho => ?_
  have hsize := (h.proper i hi).size
  have hlt := List.mem_range.mp ho
  unfold Store.byte
  rw [hblock _ (bn_lt (by omega))]

theorem Stored.kept {off : ℕ} {src : List ℕ} (hs : Stored fs fs' inum off src) (h : Sound fs)
    (hc : (fs'.mem inum).isSome = true) : Kept fs fs' inum := by
  refine ⟨hs.sound, hs.sb, hc, hs.type, fun i hi hne => ?_, hs.spend⟩
  obtain ⟨hip, hblock⟩ := hs.other i hi hne
  exact ⟨hip, content_congr h hi hip hblock⟩

theorem Stored.content {off : ℕ} {src : List ℕ} (hs : Stored fs fs' inum off src)
    (hi : inum < fs.sb.ninodes) (hoff : off ≤ (fs.ip inum).size) :
    fs'.content inum = overwrite (fs.content inum) off src := by
  unfold Store.content
  rw [hs.size]
  refine overwrite_map hoff fun o ho => hs.byte o ?_
  have hsize := (hs.sound.proper inum (hs.sb ▸ hi)).size
  rw [hs.size] at hsize
  omega

/-- **One call.** -/
theorem exec_step (h : Sound fs) (hi : inum < fs.sb.ninodes) (hc : (fs.mem inum).isSome = true)
    (hdev : (fs.ip inum).type ≠ T_DEV) (hw : call.Words) :
    call.exec inum fs = .error "balloc: out of blocks" ∧ fs.free < fs.absent inum ∨
      ∃ fs', call.exec inum fs = .ok ((call.spec (fs.content inum)).1, fs') ∧
        fs'.content inum = (call.spec (fs.content inum)).2 ∧ Kept fs fs' inum := by
  have hlen := fs.length_content inum
  cases call with
  | read off n =>
    obtain ⟨hoff, hn⟩ := hw
    have hread := readi_eq (h.proper inum hi).size (h.proper inum hi).mapped hdev hoff hn
    simp only [Call.exec, Call.spec, hlen, hread, ← fs.take_content inum off n]
    refine .inr ⟨fs, ?_, ?_, .refl h hc⟩
    · split_ifs <;> rfl
    · split_ifs <;> rfl
  | write off src =>
    obtain ⟨hoff, hn⟩ := hw
    simp only [Call.exec, Call.spec, hlen]
    rcases writei_cases h hi hc hdev hoff hn with ⟨hbad, he⟩ | ⟨hgood, he | ⟨fs', he, hs, hc'⟩⟩
    · rw [if_pos hbad]
      exact .inr ⟨fs, he, rfl, .refl h hc⟩
    · exact .inl he
    · rw [if_neg (by omega)]
      exact .inr ⟨fs', he, hs.content hi hgood.1, hs.kept h hc'⟩

/-- **Inodes behave as byte files.** Calls of `readi` and `writei` on an inode return what they
return on the list of its bytes, leave that list, and change no other inode; on a disk with
too few free blocks for the inode a call may panic instead. -/
theorem execAll_spec (fs : Store) (inum : ℕ) (calls : List Call) (h : Sound fs)
    (hi : inum < fs.sb.ninodes) (hc : (fs.mem inum).isSome = true)
    (hdev : (fs.ip inum).type ≠ T_DEV) (hw : ∀ call ∈ calls, call.Words) :
    execAll inum calls fs = .error "balloc: out of blocks" ∧ fs.free < fs.absent inum ∨
      ∃ fs', execAll inum calls fs = .ok ((specAll calls (fs.content inum)).1, fs') ∧
        fs'.content inum = (specAll calls (fs.content inum)).2 ∧ Kept fs fs' inum := by
  induction calls generalizing fs with
  | nil => exact .inr ⟨fs, rfl, rfl, .refl h hc⟩
  | cons call calls ih =>
    unfold execAll
    rcases exec_step h hi hc hdev (hw call List.mem_cons_self) with ⟨he, hlt⟩ | ⟨fs₁, he, hcont, hk⟩
    · exact .inl ⟨by rw [he]; rfl, hlt⟩
    rw [he]
    have hsb := hk.sb
    have hspend := hk.spend
    rcases ih fs₁ hk.sound (by rwa [hsb]) hk.cached (by rwa [hk.type])
      (fun c hc => hw c (List.mem_cons_of_mem _ hc)) with ⟨he', hlt⟩ | ⟨fs₂, he', hcont', hk'⟩
    · refine .inl ⟨?_, by omega⟩
      show (execAll inum calls fs₁).map _ = _
      rw [he']
      rfl
    · rw [hcont] at he' hcont'
      refine .inr ⟨fs₂, ?_, hcont', hk.trans hk'⟩
      show (execAll inum calls fs₁).map _ = _
      rw [he']
      rfl

theorem execAll_spec_hi :
    ∃ fs', execAll 1 [.write 0 [104, 105], .read 1 9, .write 3 [0]] image =
      .ok ([.written 2, .read [105], .failed], fs') ∧ fs'.content 1 = [104, 105] := by
  have hfree : 141 ≤ image.free := by decide +kernel
  have habsent : image.absent 1 ≤ 141 := Finset.card_filter_le _ _
  rcases execAll_spec image 1 [.write 0 [104, 105], .read 1 9, .write 3 [0]] image_sound (by decide)
    (by decide) (by decide) (by simp [Call.Words]) with ⟨-, hlt⟩ | ⟨fs', he, hcont, -⟩
  · omega
  · exact ⟨fs', he, hcont⟩

end Fs

end OsPlayground
