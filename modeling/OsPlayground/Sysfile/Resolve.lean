import OsPlayground.Lib.Total
import OsPlayground.Sysfile.Elements
import OsPlayground.Sysfile.Refs

/-!
# Path names

`namei` and `nameiparent` follow the components of the path.

* `walk`: the inode reached by looking up names one after another, in a tree of directories.
* `Walk s₀ o l s`: what is true while `namex`, called in `s₀`, holds the references `l`.
* `namexLoop_total`: the loop finds what `walk` says, or there are no entries of `icache` left.
* `path_resolution`: the two functions.
-/

namespace OsPlayground

namespace Sysfile

open Lib
open Fs (Store T_DIR Sound Cached)

/-! ## Looking up names -/

/-- The inode number of the first entry with the name. -/
def lookup (fs : Store) (dir : ℕ) (name : List ℕ) : Option ℕ :=
  ((List.range (entries fs dir)).find? (holdsName fs dir name)).map (inumAt fs dir)

/-- The inode reached from `i` by looking up the names one after another. -/
def walk (fs : Store) : ℕ → List (List ℕ) → Option ℕ
  | i, [] => some i
  | i, c :: cs => if (fs.ip i).type = T_DIR then (lookup fs i c).bind fun j => walk fs j cs else none

/-- The directory in which the last name is to be looked up, with that name. -/
def walkParent (fs : Store) (i : ℕ) (cs : List (List ℕ)) : Option (ℕ × List ℕ) :=
  cs.getLast?.bind fun c => (walk fs i cs.dropLast).bind fun j =>
    if (fs.ip j).type = T_DIR then some (j, c) else none

/-- A name is missing, or an inode in which to look one up is not a directory. -/
def Stuck (fs : Store) (i : ℕ) (cs : List (List ℕ)) : Prop :=
  ∃ cs₁ c cs₂ j, cs = cs₁ ++ c :: cs₂ ∧ walk fs i cs₁ = some j ∧
    ((fs.ip j).type ≠ T_DIR ∨ lookup fs j c = none)

section Walking

variable {fs : Store} {i j : ℕ} {c : List ℕ} {cs : List (List ℕ)}

theorem walk_dir (h : (fs.ip i).type = T_DIR) : walk fs i (c :: cs) = (lookup fs i c).bind fun j => walk fs j cs :=
  if_pos h

theorem walk_not_dir (h : (fs.ip i).type ≠ T_DIR) : walk fs i (c :: cs) = none := if_neg h

/-- The walk ends early exactly where it gets stuck. -/
theorem walk_eq_none : walk fs i cs = none ↔ Stuck fs i cs := by
  induction cs generalizing i with
  | nil =>
    refine iff_of_false (by simp [walk]) ?_
    rintro ⟨cs₁, c, cs₂, j, h, -⟩
    simp at h
  | cons c cs ih =>
    by_cases hd : (fs.ip i).type = T_DIR
    · rcases hl : lookup fs i c with _ | j
      · rw [walk_dir hd, hl]
        exact iff_of_true rfl ⟨[], c, cs, i, rfl, rfl, .inr hl⟩
      · rw [walk_dir hd, hl, Option.bind_some, ih]
        constructor
        · rintro ⟨cs₁, c', cs₂, k, rfl, hw, hk⟩
          exact ⟨c :: cs₁, c', cs₂, k, rfl, by rw [walk_dir hd, hl]; exact hw, hk⟩
        · rintro ⟨cs₁, c', cs₂, k, hcs, hw, hk⟩
          rcases cs₁ with _ | ⟨c₁, cs₁⟩
          · obtain ⟨rfl, rfl⟩ := List.cons.inj hcs
            obtain rfl := Option.some.inj hw
            rw [hl] at hk
            exact absurd hk (by simp [hd])
          · obtain ⟨rfl, rfl⟩ := List.cons.inj hcs
            rw [walk_dir hd, hl] at hw
            exact ⟨cs₁, c', cs₂, k, rfl, hw, hk⟩
    · rw [walk_not_dir hd]
      exact iff_of_true rfl ⟨[], c, cs, i, rfl, rfl, .inl hd⟩

theorem walkParent_eq_none : walkParent fs i cs = none ↔ cs = [] ∨ Stuck fs i cs.dropLast ∨
    ∃ j, walk fs i cs.dropLast = some j ∧ (fs.ip j).type ≠ T_DIR := by
  rcases List.eq_nil_or_concat cs with rfl | ⟨cs, c, rfl⟩
  · exact iff_of_true rfl (.inl rfl)
  · rw [List.concat_eq_append, walkParent, List.getLast?_concat, List.dropLast_concat, Option.bind_some, ← walk_eq_none]
    rcases walk fs i cs with _ | j
    · simp
    · by_cases hd : (fs.ip j).type = T_DIR <;> simp [hd]

/-- What `namex` should find. -/
def resolve (fs : Store) (par : Bool) (i : ℕ) (cs : List (List ℕ)) : Option (ℕ × List ℕ) :=
  if par then walkParent fs i cs else (walk fs i cs).map fun j => (j, [])

theorem resolve_nil (par : Bool) : resolve fs par i [] = if par then none else some (i, []) := by
  cases par <;> rfl

theorem resolve_not_dir (par : Bool) (h : (fs.ip i).type ≠ T_DIR) : resolve fs par i (c :: cs) = none := by
  cases par with
  | false => rw [resolve, if_neg Bool.false_ne_true, walk_not_dir h, Option.map_none]
  | true =>
    rw [resolve, if_pos rfl, walkParent_eq_none]
    rcases cs with _ | ⟨c', cs⟩
    · exact .inr (.inr ⟨i, rfl, h⟩)
    · exact .inr (.inl (walk_eq_none.1 (walk_not_dir h)))

theorem resolve_last (h : (fs.ip i).type = T_DIR) : resolve fs true i [c] = some (i, c) := by
  rw [resolve, if_pos rfl]
  exact if_pos h

theorem resolve_cons {par : Bool} (h : (fs.ip i).type = T_DIR) (hlast : ¬ (par = true ∧ cs = [])) :
    resolve fs par i (c :: cs) = (lookup fs i c).bind fun j => resolve fs par j cs := by
  cases par with
  | false =>
    unfold resolve
    rw [if_neg Bool.false_ne_true, walk_dir h]
    cases lookup fs i c <;> rfl
  | true =>
    have hne : cs ≠ [] := fun hnil => hlast ⟨rfl, hnil⟩
    unfold resolve walkParent
    rw [if_pos rfl, List.getLast?_cons_of_ne_nil hne, List.dropLast_cons_of_ne_nil hne, walk_dir h]
    rcases lookup fs i c with _ | j
    · cases cs.getLast? <;> rfl
    · rfl

end Walking

/-! ## The state during `namex` -/

/-- Between system calls: nothing is locked, and every entry that is in use is the only one of its
inode. -/
structure Quiet (s : Sys) : Prop where
  sound : Sound s.fs
  unlocked : ∀ e, (s.icache e).locked = false
  entry : ∀ e, 0 < (s.icache e).ref → e < NINODE ∧ (s.icache e).dev = ROOTDEV ∧
    (s.icache e).inum < s.fs.sb.ninodes
  distinct : ∀ e e', 0 < (s.icache e).ref → 0 < (s.icache e').ref →
    (s.icache e).inum = (s.icache e').inum → e = e'

/-- An inode that is there and will not go away: it has links, or somebody has a reference to it. -/
structure Alive (s : Sys) (i : ℕ) : Prop where
  lt : i < s.fs.sb.ninodes
  type : (s.fs.ip i).type ≠ 0
  kept : (s.fs.ip i).nlink ≠ 0 ∨ ∃ e, 0 < (s.icache e).ref ∧ (s.icache e).inum = i

/-- A tree of directories: full entries, and no entry or reference leads to an inode that is free. -/
structure Tree (s : Sys) : Prop where
  root : Alive s ROOTINO
  held : ∀ e, 0 < (s.icache e).ref → (s.fs.ip (s.icache e).inum).type ≠ 0
  size : ∀ i < s.fs.sb.ninodes, (s.fs.ip i).type = T_DIR → 16 * entries s.fs i = (s.fs.ip i).size
  entry : ∀ i < s.fs.sb.ninodes, (s.fs.ip i).type = T_DIR → ∀ k < entries s.fs i,
    inumAt s.fs i k ≠ 0 → Alive s (inumAt s.fs i k)

/-- The state while a call that was made in `s₀` holds the references `l`, each to an entry with the
number of its inode, and the lock of the entry `o`. -/
structure Walk (s₀ : Sys) (o : Option ℕ) (l : List (ℕ × ℕ)) (s : Sys) : Prop where
  fs : Cached s₀.fs s.fs
  files : s.files = s₀.files
  cwd : s.cwd = s₀.cwd
  pipe : s.pipe = s₀.pipe
  ref : ∀ e, (s.icache e).ref = (s₀.icache e).ref + (l.map Prod.fst).count e
  inum : ∀ x ∈ l, (s.icache x.1).inum = x.2
  old : ∀ e, 0 < (s₀.icache e).ref → (s.icache e).dev = (s₀.icache e).dev ∧
    (s.icache e).inum = (s₀.icache e).inum
  locked : ∀ e, (s.icache e).locked = true ↔ o = some e
  entry : ∀ e, 0 < (s.icache e).ref → e < NINODE ∧ (s.icache e).dev = ROOTDEV ∧
    (s.icache e).inum < s₀.fs.sb.ninodes
  distinct : ∀ e e', 0 < (s.icache e).ref → 0 < (s.icache e').ref →
    (s.icache e).inum = (s.icache e').inum → e = e'

/-- The number of empty entries of `icache`. -/
def emptyEntries (s : Sys) : ℕ := ((List.range NINODE).filter fun e => (s.icache e).ref = 0).length

/-- The only panic, and only with fewer than two empty entries. -/
def Short (s : Sys) (e : Halt) : Prop := e = .panic "iget: no inodes" ∧ emptyEntries s < 2

section States

variable {s₀ s s' : Sys} {o o' : Option ℕ} {l l' : List (ℕ × ℕ)} {e i inum : ℕ}

theorem cached_trans {fs fs₁ fs₂ : Store} (h : Cached fs fs₁) (h' : Cached fs₁ fs₂) : Cached fs fs₂ where
  sb := h'.sb.trans h.sb
  disk := h'.disk.trans h.disk
  freed := h'.freed.trans h.freed
  ip i hi := (h'.ip i (by rw [h.sb]; exact hi)).trans (h.ip i hi)
  mem i hi ht hn := h'.mem i (by rw [h.sb]; exact hi) (by rw [h.ip i hi]; exact ht) (h.mem i hi ht hn)

theorem Quiet.walk (h : Quiet s₀) : Walk s₀ none [] s₀ where
  fs := ⟨rfl, rfl, rfl, fun _ _ => rfl, fun _ _ _ hn => hn⟩
  files := rfl
  cwd := rfl
  pipe := rfl
  ref e := rfl
  inum x hx := absurd hx List.not_mem_nil
  old e _ := ⟨rfl, rfl⟩
  locked e := by
    rw [h.unlocked e]
    exact iff_of_false Bool.false_ne_true (by simp)
  entry := h.entry
  distinct := h.distinct

namespace Walk

theorem ref_pos (h : Walk s₀ o l s) {x : ℕ × ℕ} (hx : x ∈ l) : 0 < (s.icache x.1).ref := by
  have hcount := List.count_pos_iff.2 (List.mem_map_of_mem hx : x.1 ∈ l.map Prod.fst)
  have href := h.ref x.1
  omega

theorem lt (h : Walk s₀ o l s) {x : ℕ × ℕ} (hx : x ∈ l) : x.2 < s₀.fs.sb.ninodes := by
  rw [← h.inum x hx]
  exact (h.entry x.1 (h.ref_pos hx)).2.2

theorem setFs (h : Walk s₀ o l s) {fs : Store} (hfs : Cached s.fs fs) : Walk s₀ o l (s.setFs fs) where
  fs := cached_trans h.fs hfs
  files := h.files
  cwd := h.cwd
  pipe := h.pipe
  ref := h.ref
  inum := h.inum
  old := h.old
  locked := h.locked
  entry := h.entry
  distinct := h.distinct

theorem setEntry_same {α : Type} (f : Entry → α) {g : Entry → Entry} (hg : ∀ r, f (g r) = f r) (e' : ℕ) :
    f ((s.setEntry e g).icache e') = f (s.icache e') := by
  rw [setEntry_icache]
  split_ifs with he
  · rw [hg, he]
  · rfl

/-- A lock is taken or released. -/
theorem relock (h : Walk s₀ o l s) {b : Bool} (hlocked : b = true ↔ o' = some e)
    (hother : ∀ e', e' ≠ e → (o = some e' ↔ o' = some e')) :
    Walk s₀ o' l (s.setEntry e fun r => { r with locked := b }) := by
  have hdev := setEntry_same (s := s) (e := e) Entry.dev (g := fun r => { r with locked := b }) fun _ => rfl
  have hinum := setEntry_same (s := s) (e := e) Entry.inum (g := fun r => { r with locked := b }) fun _ => rfl
  have href := setEntry_same (s := s) (e := e) Entry.ref (g := fun r => { r with locked := b }) fun _ => rfl
  refine ⟨h.fs, h.files, h.cwd, h.pipe, fun e' => ?_, fun x hx => ?_, fun e' he => ?_, fun e' => ?_,
    fun e' he => ?_, fun e₁ e₂ h₁ h₂ h₁₂ => ?_⟩
  · rw [href, h.ref]
  · rw [hinum, h.inum x hx]
  · rw [hdev, hinum]
    exact h.old e' he
  · rw [setEntry_icache]
    split_ifs with he
    · rw [he]
      exact hlocked
    · exact (h.locked e').trans (hother e' he)
  · rw [href] at he
    rw [hdev, hinum]
    exact h.entry e' he
  · rw [href] at h₁ h₂
    rw [hinum, hinum] at h₁₂
    exact h.distinct e₁ e₂ h₁ h₂ h₁₂

/-- The number of references to an entry changes, and the number of those held with it. -/
theorem setRef (h : Walk s₀ o l s) {g : Entry → Entry}
    (hl : ∀ e', e' ≠ e → (l'.map Prod.fst).count e' = (l.map Prod.fst).count e')
    (hmem : ∀ x ∈ l', x.1 = e ∧ (g (s.icache e)).inum = x.2 ∨ x.1 ≠ e ∧ x ∈ l)
    (href : (g (s.icache e)).ref + (l.map Prod.fst).count e = (s.icache e).ref + (l'.map Prod.fst).count e)
    (hold : 0 < (s₀.icache e).ref → (g (s.icache e)).dev = (s.icache e).dev ∧
      (g (s.icache e)).inum = (s.icache e).inum)
    (hlocked : (g (s.icache e)).locked = (s.icache e).locked)
    (hentry : 0 < (g (s.icache e)).ref → e < NINODE ∧ (g (s.icache e)).dev = ROOTDEV ∧
      (g (s.icache e)).inum < s₀.fs.sb.ninodes)
    (hdistinct : 0 < (g (s.icache e)).ref → ∀ e', e' ≠ e → 0 < (s.icache e').ref →
      (s.icache e').inum ≠ (g (s.icache e)).inum) : Walk s₀ o l' (s.setEntry e g) := by
  refine ⟨h.fs, h.files, h.cwd, h.pipe, fun e' => ?_, fun x hx => ?_, fun e' he => ?_, fun e' => ?_,
    fun e' he => ?_, fun e₁ e₂ h₁ h₂ h₁₂ => ?_⟩
  · have hr := h.ref e'
    rw [setEntry_icache]
    split_ifs with he
    · rw [he] at hr ⊢
      omega
    · rw [hl e' he, hr]
  · rw [setEntry_icache]
    rcases hmem x hx with ⟨he, hi⟩ | ⟨hne, hx⟩
    · rw [if_pos he, hi]
    · rw [if_neg hne, h.inum x hx]
  · rw [setEntry_icache]
    split_ifs with hee
    · rw [hee] at he ⊢
      rw [(hold he).1, (hold he).2]
      exact h.old e he
    · exact h.old e' he
  · rw [setEntry_icache]
    split_ifs with he
    · rw [he, hlocked]
      exact h.locked e
    · exact h.locked e'
  · rw [setEntry_icache] at he ⊢
    split_ifs at he ⊢ with hee
    · rw [hee]
      exact hentry he
    · exact h.entry e' he
  · simp only [setEntry_icache] at h₁ h₂ h₁₂
    split_ifs at h₁ h₂ h₁₂ with he₁ he₂ he₂
    · rw [he₁, he₂]
    · exact absurd h₁₂.symm (hdistinct h₁ e₂ he₂ h₂)
    · exact absurd h₁₂ (hdistinct h₂ e₁ he₁ h₁)
    · exact h.distinct e₁ e₂ h₁ h₂ h₁₂

theorem swap {x y : ℕ × ℕ} (h : Walk s₀ o (x :: y :: l) s) : Walk s₀ o (y :: x :: l) s :=
  { h with
    ref := fun e => by
      rw [h.ref e]
      exact congrArg _ (((List.Perm.swap x y l).map Prod.fst).symm.count_eq e)
    inum := fun z hz => h.inum z ((List.Perm.swap x y l).mem_iff.1 hz) }

theorem bump (h : Walk s₀ o l s) (hpos : 0 < (s.icache e).ref) :
    Walk s₀ o ((e, (s.icache e).inum) :: l) (s.setEntry e fun r => { r with ref := r.ref + 1 }) := by
  refine h.setRef (fun e' he => List.count_cons_of_ne (Ne.symm he)) (fun x hx => ?_) ?_
    (fun _ => ⟨rfl, rfl⟩) rfl (fun _ => h.entry e hpos) fun _ e' he hpos' hinum => ?_
  · rcases List.mem_cons.1 hx with rfl | hx
    · exact .inl ⟨rfl, rfl⟩
    · by_cases he : x.1 = e
      · exact .inl ⟨he, by rw [← h.inum x hx, he]⟩
      · exact .inr ⟨he, hx⟩
  · rw [List.map_cons, List.count_cons_self]
    dsimp only
    omega
  · exact he (h.distinct e' e hpos' hpos hinum)

theorem drop (h : Walk s₀ o ((e, i) :: l) s) :
    Walk s₀ o l (s.setEntry e fun r => { r with ref := r.ref - 1 }) := by
  have hpos := h.ref_pos List.mem_cons_self
  refine h.setRef (fun e' he => (List.count_cons_of_ne (Ne.symm he)).symm) (fun x hx => ?_) ?_
    (fun _ => ⟨rfl, rfl⟩) rfl (fun _ => h.entry e hpos) fun _ e' he hpos' hinum => ?_
  · have hx' := List.mem_cons_of_mem (e, i) hx
    by_cases he : x.1 = e
    · exact .inl ⟨he, by rw [← h.inum x hx', he]⟩
    · exact .inr ⟨he, hx'⟩
  · rw [List.map_cons, List.count_cons_self]
    dsimp only at hpos ⊢
    omega
  · exact he (h.distinct e' e hpos' hpos hinum)

theorem reuse (h : Walk s₀ o l s) (he : e < NINODE) (hzero : (s.icache e).ref = 0)
    (hlt : inum < s₀.fs.sb.ninodes) (hnew : ∀ e', 0 < (s.icache e').ref → (s.icache e').inum ≠ inum) :
    Walk s₀ o ((e, inum) :: l)
      (s.setEntry e fun r => { r with dev := ROOTDEV, inum := inum, ref := 1 }) := by
  have href := h.ref e
  refine h.setRef (fun e' he => List.count_cons_of_ne (Ne.symm he)) (fun x hx => ?_) ?_
    (fun hpos => by omega) rfl (fun _ => ⟨he, rfl, hlt⟩) fun _ e' _ hpos => hnew e' hpos
  · rcases List.mem_cons.1 hx with rfl | hx
    · exact .inl ⟨rfl, rfl⟩
    · refine .inr ⟨fun hxe => ?_, hx⟩
      have hpos := h.ref_pos hx
      rw [hxe, hzero] at hpos
      exact absurd hpos (lt_irrefl 0)
  · rw [List.map_cons, List.count_cons_self]
    dsimp only
    omega

theorem few (h : Walk s₀ o l s) (hnone : emptyEntry s = none) : emptyEntries s₀ ≤ l.length := by
  have hsub : ((List.range NINODE).filter fun e => (s₀.icache e).ref = 0) ⊆ l.map Prod.fst := by
    intro e he
    obtain ⟨hlt, hzero⟩ := List.mem_filter.1 he
    have hused := List.find?_eq_none.1 hnone e hlt
    have href := h.ref e
    rw [of_decide_eq_true hzero, Nat.zero_add] at href
    refine List.count_pos_iff.1 (Nat.pos_of_ne_zero fun hc => hused ?_)
    rw [decide_eq_true_iff, href, hc]
  have hle := (List.subperm_of_subset (List.nodup_range.filter _) hsub).length_le
  rwa [List.length_map] at hle

end Walk

/-! ## The functions -/

theorem onStore_total {α : Type} {P : Sys → Prop} {E : Halt → Prop} {Q : α → Sys → Prop}
    {m : Store → Except String (α × Store)}
    (h : ∀ s, P s → ∃ a fs, m s.fs = .ok (a, fs) ∧ Q a (s.setFs fs)) : Total P (onStore m) E Q := by
  intro s hs
  obtain ⟨a, fs, hm, hq⟩ := h s hs
  refine .inr ⟨a, s.setFs fs, ?_, hq⟩
  rw [onStore, hm]

theorem inStore_total {P : Sys → Prop} {E : Halt → Prop} {Q : Sys → Prop} {m : Store → Except String Store}
    (h : ∀ s, P s → ∃ fs, m s.fs = .ok fs ∧ Q (s.setFs fs)) : Total P (inStore m) E fun _ => Q :=
  onStore_total fun s hs => by
    obtain ⟨fs, hm, hq⟩ := h s hs
    exact ⟨(), fs, by rw [hm]; rfl, hq⟩

/-- **`iget`** takes a reference, unless all entries are in use. -/
theorem iget_total (hs : Sound s₀.fs) (hlt : inum < s₀.fs.sb.ninodes) (hl : l.length < 2) :
    Total (Walk s₀ o l) (iget ROOTDEV inum) (Short s₀) fun e => Walk s₀ o ((e, inum) :: l) := by
  refine Total.read fun s h => ?_
  rcases hf : findEntry ROOTDEV inum s with _ | e
  · have hnew : ∀ e', 0 < (s.icache e').ref → (s.icache e').inum ≠ inum := fun e' hpos =>
      findEntry_none hf (h.entry e' hpos).1 hpos (h.entry e' hpos).2.1
    dsimp only
    rcases he : emptyEntry s with _ | e
    · exact Total.fail fun _ _ => ⟨rfl, Nat.lt_of_le_of_lt (h.few he) hl⟩
    · obtain ⟨hroom, hzero⟩ := emptyEntry_some he
      refine Total.seq (T := Walk s₀ o ((e, inum) :: l)) (Total.assign fun s' hs' => ?_)
        ((inStore_total fun s' h' => ?_).seq (Total.pure fun _ h => h))
      · rw [hs']
        exact h.reuse hroom hzero hlt hnew
      · exact ⟨_, rfl, h'.setFs (Fs.evict_cached (h'.fs.sound hs) inum)⟩
  · obtain ⟨hpos, -, hinum⟩ := findEntry_some hf
    refine Total.seq (Total.assign fun s' hs' => ?_) (Total.pure fun _ h => h)
    rw [hs', ← hinum]
    exact h.bump hpos

theorem acquireInode_total {E : Halt → Prop} (e : ℕ) :
    Total (Walk s₀ none l) (acquireInode e) E fun _ => Walk s₀ (some e) l := by
  refine Total.read fun s h => Total.ite (fun hlock => ?_) fun _ => Total.assign fun s' hs' => ?_
  · cases (h.locked e).1 hlock
  · rw [hs']
    exact h.relock (iff_of_true rfl rfl) fun e' he =>
      iff_of_false (by simp) fun hsome => he (Option.some.inj hsome).symm

theorem releaseInode_total {E : Halt → Prop} (e : ℕ) :
    Total (Walk s₀ (some e) l) (releaseInode e) E fun _ => Walk s₀ none l :=
  Total.assign fun s h => h.relock (iff_of_false Bool.false_ne_true (by simp)) fun e' he =>
    iff_of_false (fun hsome => he (Option.some.inj hsome).symm) (by simp)

theorem ilock_total {E : Halt → Prop} (hx : (e, i) ∈ l) (ht : (s₀.fs.ip i).type ≠ 0) :
    Total (Walk s₀ none l) (ilock e) E fun _ s => Walk s₀ (some e) l s ∧ (s.fs.mem i).isSome = true := by
  refine Total.read fun s h => Total.ite (fun hlt => ?_) fun _ => ?_
  · have hpos := h.ref_pos hx
    exact absurd hlt (Nat.not_lt.2 hpos)
  · have hinum : (s.icache e).inum = i := h.inum _ hx
    rw [hinum]
    refine Total.seq ((acquireInode_total e).pre fun _ hs' => hs' ▸ h) (inStore_total fun s' h' => ?_)
    have hip := h'.fs.ip i (h.lt hx)
    rcases Fs.ilock_cases s'.fs i with he | ⟨fs, he, hc, hmem⟩
    · exfalso
      unfold Fs.ilock at he
      split at he
      · cases he
      · dsimp only at he
        rw [Store.setIp_ip, id, if_neg (by rw [hip]; exact ht)] at he
        cases he
    · exact ⟨fs, he, h'.setFs hc, hmem⟩

theorem iunlock_total {E : Halt → Prop} (hx : (e, i) ∈ l) :
    Total (Walk s₀ (some e) l) (iunlock e) E fun _ => Walk s₀ none l := by
  refine Total.read fun s h => Total.ite (fun hor => ?_) fun _ =>
    (releaseInode_total e).pre fun _ hs' => hs' ▸ h
  have hpos := h.ref_pos hx
  have hlock := (h.locked e).2 rfl
  rcases hor with hfalse | hlt
  · rw [hlock] at hfalse
    cases hfalse
  · exact absurd hlt (Nat.not_lt.2 hpos)

/-- **`iput`** drops a reference, and does not free an inode that is kept. -/
theorem iput_total {E : Halt → Prop} (hs : Sound s₀.fs) (ha : Alive s₀ i) :
    Total (Walk s₀ none ((e, i) :: l)) (iput e) E fun _ => Walk s₀ none l := by
  refine (acquireInode_total e).seq (Total.read fun s h => ?_)
  have hinum : (s.icache e).inum = i := h.inum _ List.mem_cons_self
  have hpos : 0 < (s.icache e).ref := h.ref_pos List.mem_cons_self
  have hnot : ¬ Fs.Last s.fs i (s.icache e).ref := by
    rintro ⟨-, hlink, hone⟩
    rw [h.fs.ip i ha.lt] at hlink
    rcases ha.kept with hk | ⟨e', hpos', he'⟩
    · exact hk hlink
    · -- the entry that was in use before is this one, and now has a reference more
      have href' := h.ref e'
      have hee : e' = e := h.distinct e' e (by omega) hpos (by rw [(h.old e' hpos').2, he', hinum])
      have href := h.ref e
      rw [List.map_cons, List.count_cons_self] at href
      rw [hee] at hpos'
      omega
  have hput : Fs.iput i (s.icache e).ref s.fs = .ok s.fs := by
    rcases Fs.iput_spec (h.fs.sound hs) (by rw [h.fs.sb]; exact ha.lt) (s.icache e).ref with
      ⟨-, he⟩ | ⟨hlast, -⟩
    · exact he
    · exact absurd hlast hnot
  rw [hinum]
  refine Total.seq (T := Walk s₀ (some e) ((e, i) :: l)) (inStore_total fun s' hs' => ?_) ((releaseInode_total e).seq
    (Total.assign fun s' h' => h'.drop))
  rw [hs']
  exact ⟨s.fs, hput, h⟩

theorem iunlockput_total {E : Halt → Prop} (hs : Sound s₀.fs) (ha : Alive s₀ i) :
    Total (Walk s₀ (some e) ((e, i) :: l)) (iunlockput e) E fun _ => Walk s₀ none l :=
  (iunlock_total List.mem_cons_self).seq (iput_total hs ha)

/-! ## Directories -/

theorem cached_lookup {fs fs' : Store} (h : Cached fs fs') (hi : i < fs.sb.ninodes) (name : List ℕ) :
    lookup fs' i name = lookup fs i name := by
  have hentries : entries fs' i = entries fs i := by rw [entries, entries, h.ip i hi]
  have hdirent : direntAt fs' i = direntAt fs i := by
    funext k
    refine List.map_congr_left fun o _ => ?_
    rw [Store.byte, Store.byte, h.block hi]
  have hinum : inumAt fs' i = inumAt fs i := by
    funext k
    rw [inumAt, inumAt, hdirent]
  have hholds : holdsName fs' i name = holdsName fs i name := by
    funext k
    rw [holdsName, holdsName, hinum, nameAt, nameAt, hdirent]
  rw [lookup, lookup, hentries, hinum, hholds]

theorem Tree.lookup (ht : Tree s₀) (hi : i < s₀.fs.sb.ninodes) (hd : (s₀.fs.ip i).type = T_DIR)
    {name : List ℕ} {j : ℕ} (h : lookup s₀.fs i name = some j) : Alive s₀ j := by
  obtain ⟨k, hk, rfl⟩ := Option.map_eq_some_iff.1 h
  have hholds := List.find?_some hk
  rw [holdsName, decide_eq_true_iff] at hholds
  exact ht.entry i hi hd k (List.mem_range.1 (List.mem_of_find?_eq_some hk)) hholds.1

/-- What `dirlookup` returns, and the references after it. -/
def Looked (s₀ : Sys) (dp i : ℕ) (name : List ℕ) (r : Option (ℕ × ℕ)) (s : Sys) : Prop :=
  (r = none ∧ lookup s₀.fs i name = none ∧ Walk s₀ (some dp) [(dp, i)] s) ∨
  ∃ e j off, r = some (e, off) ∧ lookup s₀.fs i name = some j ∧ Walk s₀ (some dp) [(e, j), (dp, i)] s

theorem dirlookup_total (hs : Sound s₀.fs) (ht : Tree s₀) (hi : i < s₀.fs.sb.ninodes)
    (hd : (s₀.fs.ip i).type = T_DIR) (name : List ℕ) :
    Total (fun s => Walk s₀ (some e) [(e, i)] s ∧ (s.fs.mem i).isSome = true) (dirlookup e name)
      (Short s₀) (Looked s₀ e i name) := by
  refine Total.read fun s hs' => ?_
  obtain ⟨h, hmem⟩ := hs'
  have hinum : (s.icache e).inum = i := h.inum _ List.mem_cons_self
  have hdev : (s.icache e).dev = ROOTDEV := (h.entry e (h.ref_pos List.mem_cons_self)).2.1
  have hip : s.fs.ip i = s₀.fs.ip i := h.fs.ip i hi
  have hdir : IsDir s.fs i := by
    refine ⟨h.fs.sound hs, by rw [h.fs.sb]; exact hi, hmem, by rw [hip]; exact hd, ?_⟩
    rw [entries, hip]
    exact ht.size i hi hd
  have htype : ¬ (s.ip e).type ≠ T_DIR := by
    rw [Sys.ip, hinum, not_not]
    exact hdir.type
  have hscan : lookupLoop i name (direntOffsets (s.ip e).size) s.fs =
      .ok (((List.range (entries s.fs i)).find? (holdsName s.fs i name)).map
        fun k => (16 * k, inumAt s.fs i k), s.fs) := by
    rw [Sys.ip, hinum, ← dirScan_eq hdir name, dirScan, if_neg (not_not.2 hdir.type)]
  have hlook := cached_lookup h.fs hi name
  refine Total.ite (fun hne => absurd hne htype) fun _ => ?_
  rw [hinum, hdev]
  refine Total.bind (Q := fun r s' => s' = s ∧ r = ((List.range (entries s.fs i)).find?
    (holdsName s.fs i name)).map fun k => (16 * k, inumAt s.fs i k)) (onStore_total fun s' hs' => ?_) fun r => ?_
  · rw [hs']
    exact ⟨_, s.fs, hscan, rfl, rfl⟩
  rcases r with _ | x
  · refine Total.pure fun s' hs' => .inl ⟨rfl, ?_, hs'.1 ▸ h⟩
    rw [← hlook, Sysfile.lookup, Option.map_eq_none_iff]
    exact Option.map_eq_none_iff.1 hs'.2.symm
  · by_cases hr : some x = ((List.range (entries s.fs i)).find? (holdsName s.fs i name)).map
        fun k => (16 * k, inumAt s.fs i k)
    · have hfound : Sysfile.lookup s₀.fs i name = some x.2 := by
        obtain ⟨k, hk, hx⟩ := Option.map_eq_some_iff.1 hr.symm
        rw [← hlook, Sysfile.lookup, hk, ← hx]
        rfl
      refine Total.bind (Q := fun e' => Walk s₀ (some e) [(e', x.2), (e, i)])
        ((iget_total (l := [(e, i)]) hs (ht.lookup hi hd hfound).lt (Nat.lt_succ_self 1)).pre
          fun s' hs' => hs'.1 ▸ h) fun e' => ?_
      exact Total.pure fun s' h' => .inr ⟨e', x.2, x.1, rfl, hfound, h'⟩
    · exact fun s' hs' => absurd hs'.2 hr

/-! ## Path names -/

/-- `namex` has found what it should, and holds a reference to that only. -/
def Found (s₀ : Sys) (goal : Option (ℕ × List ℕ)) (r : Option (ℕ × List ℕ)) (s : Sys) : Prop :=
  (r = none ∧ goal = none ∧ Walk s₀ none [] s) ∨
  ∃ e j name, r = some (e, name) ∧ goal = some (j, name) ∧ Walk s₀ none [(e, j)] s

theorem namexEnd_total {E : Halt → Prop} (hs : Sound s₀.fs) (ha : Alive s₀ i) (par : Bool) :
    Total (Walk s₀ none [(e, i)]) (namexEnd par e) E (Found s₀ (resolve s₀.fs par i [])) := by
  rw [resolve_nil]
  refine Total.ite (fun hpar => ?_) fun hpar => ?_
  · rw [if_pos hpar]
    exact (iput_total hs ha).seq (Total.pure fun s h => .inl ⟨rfl, rfl, h⟩)
  · rw [if_neg hpar]
    exact Total.pure fun s h => .inr ⟨e, i, [], rfl, rfl, h⟩

/-- **The loop of `namex`** follows the components. -/
theorem namexLoop_total (hs : Sound s₀.fs) (ht : Tree s₀) (par : Bool) (fuel : ℕ) {path : List ℕ}
    (hfuel : path.length ≤ fuel) (ha : Alive s₀ i) :
    Total (Walk s₀ none [(e, i)]) (namexLoop par fuel e path) (Short s₀)
      (Found s₀ (resolve s₀.fs par i (components path))) := by
  induction fuel generalizing e i path with
  | zero =>
    rw [List.eq_nil_of_length_eq_zero (Nat.le_zero.1 hfuel), components_nil]
    exact namexEnd_total hs ha par
  | succ fuel ih =>
    unfold namexLoop
    rcases skipelem_cases path with ⟨hskip, hnil, -⟩ | ⟨slashes, w, slashes', rest, hp, hskip, hcons⟩
    · rw [hskip, hnil]
      exact namexEnd_total hs ha par
    · rw [hskip, hcons]
      dsimp only
      have hlast : rest = [] ↔ components rest = [] := (components_eq_nil hp.head).symm
      have hrest : rest.length ≤ fuel := by
        have hw := List.length_pos_iff.2 hp.ne_nil
        rw [hp.eq] at hfuel
        simp only [List.length_append] at hfuel
        omega
      refine Total.bind (ilock_total List.mem_cons_self ha.type) fun _ => Total.read fun s hs' => ?_
      obtain ⟨h, hmem⟩ := hs'
      have htype : (s.ip e).type = (s₀.fs.ip i).type := by
        rw [Sys.ip, show (s.icache e).inum = i from h.inum _ List.mem_cons_self, h.fs.ip i ha.lt]
      rw [htype]
      refine Total.ite (fun hd => ?_) fun hd => ?_
      · rw [resolve_not_dir par hd]
        exact ((iunlockput_total hs ha).pre fun _ hs' => hs' ▸ h).seq
          (Total.pure fun s h => .inl ⟨rfl, rfl, h⟩)
      rw [not_not] at hd
      refine Total.ite (fun hstop => ?_) fun hstop => ?_
      · obtain ⟨rfl, hnil⟩ := hstop
        rw [hlast.1 hnil, resolve_last hd]
        exact ((iunlock_total List.mem_cons_self).pre fun _ hs' => hs' ▸ h).seq
          (Total.pure fun s h => .inr ⟨e, i, _, rfl, rfl, h⟩)
      · rw [resolve_cons hd fun hpar => hstop ⟨hpar.1, hlast.2 hpar.2⟩]
        refine Total.bind ((dirlookup_total hs ht ha.lt hd _).pre fun _ hs' => hs' ▸ ⟨h, hmem⟩) fun r => ?_
        rcases r with _ | next
        · rintro s (⟨-, hnone, h⟩ | ⟨_, _, _, hr, -⟩)
          · rw [hnone]
            exact ((iunlockput_total hs ha).seq (Total.pure fun s h => .inl ⟨rfl, rfl, h⟩)) s h
          · cases hr
        · rintro s (⟨hr, -⟩ | ⟨e', j, off, hr, hsome, h⟩)
          · cases hr
          · obtain rfl := Option.some.inj hr
            rw [hsome, Option.bind_some]
            have haj := ht.lookup ha.lt hd hsome
            exact ((iunlockput_total (l := [(e', j)]) hs ha).seq (ih hrest haj)) s h.swap

/-- The inode at which a path starts. -/
def startInum (s : Sys) (cwd : ℕ) (path : List ℕ) : ℕ :=
  if path.head? = some SLASH then ROOTINO else (s.icache cwd).inum

theorem namex_total (hq : Quiet s₀) (ht : Tree s₀) {p : Slot} {cwd : ℕ} (hc : s₀.cwd p = some cwd)
    (hpos : 0 < (s₀.icache cwd).ref) (path : List ℕ) (par : Bool) :
    Total (fun s => s = s₀) (namex p path par) (Short s₀)
      (Found s₀ (resolve s₀.fs par (startInum s₀ cwd path) (components path))) := by
  refine Total.ite (fun hhead => ?_) fun hhead => ?_
  · rw [startInum, if_pos hhead]
    exact Total.bind ((iget_total (l := []) hq.sound ht.root.lt Nat.two_pos).pre fun s hs => hs ▸ hq.walk)
      fun e => namexLoop_total hq.sound ht par _ le_rfl ht.root
  · rw [startInum, if_neg hhead]
    refine Total.read fun s hs => ?_
    rw [hs, hc]
    have ha : Alive s₀ (s₀.icache cwd).inum :=
      ⟨(hq.entry cwd hpos).2.2, ht.held cwd hpos, .inr ⟨cwd, hpos, rfl⟩⟩
    refine Total.bind (Q := fun e => Walk s₀ none [(e, (s₀.icache cwd).inum)]) ?_
      fun e => namexLoop_total hq.sound ht par _ le_rfl ha
    refine Total.seq (T := Walk s₀ none [(cwd, (s₀.icache cwd).inum)]) (Total.assign fun s' hs' => ?_)
      (Total.pure fun s h => h)
    rw [hs']
    exact hq.walk.bump hpos

end States

/-! ## What the functions find -/

/-- The call made in `s` has returned in `s'` an entry for the inode `goal`, or 0; it holds one more
reference to that entry and has changed nothing else. -/
structure Reached (s s' : Sys) (goal r : Option ℕ) : Prop where
  inum : r.map (fun e => (s'.icache e).inum) = goal
  ref : ∀ e, (s'.icache e).ref = (s.icache e).ref + if r = some e then 1 else 0
  entry : ∀ e, 0 < (s.icache e).ref → (s'.icache e).dev = (s.icache e).dev ∧
    (s'.icache e).inum = (s.icache e).inum
  unlocked : ∀ e, (s'.icache e).locked = false
  fs : Cached s.fs s'.fs
  files : s'.files = s.files
  cwd : s'.cwd = s.cwd
  pipe : s'.pipe = s.pipe

/-- The functions follow the components of the path. -/
structure Resolves (s : Sys) (p : Slot) (cwd : ℕ) (path : List ℕ) : Prop where
  skipelem : ∀ mem k a, Bytes.Path mem k a path → Bytes.Yields mem k a (components path)
  namei : Short s (.panic "iget: no inodes") ∧ namei p path s = .error (.panic "iget: no inodes") ∨
    ∃ r s', namei p path s = .ok (r, s') ∧
      Reached s s' (walk s.fs (startInum s cwd path) (components path)) r ∧
      (r = none ↔ Stuck s.fs (startInum s cwd path) (components path))
  nameiparent : Short s (.panic "iget: no inodes") ∧
      nameiparent p path s = .error (.panic "iget: no inodes") ∨
    ∃ r s', nameiparent p path s = .ok (r, s') ∧
      Reached s s' ((walkParent s.fs (startInum s cwd path) (components path)).map Prod.fst) (r.map Prod.fst) ∧
      r.map Prod.snd = (walkParent s.fs (startInum s cwd path) (components path)).map Prod.snd ∧
      (r = none ↔ components path = [] ∨ Stuck s.fs (startInum s cwd path) (components path).dropLast ∨
        ∃ j, walk s.fs (startInum s cwd path) (components path).dropLast = some j ∧ (s.fs.ip j).type ≠ T_DIR)

section Resolution

variable {s s' : Sys} {cwd : ℕ} {p : Slot}

theorem Walk.reached {r goal : Option ℕ} {l : List (ℕ × ℕ)} (h : Walk s none l s')
    (hr : l.map Prod.fst = r.toList) (hg : l.map Prod.snd = goal.toList) : Reached s s' goal r := by
  refine ⟨?_, fun e => ?_, h.old, fun e => ?_, h.fs, h.files, h.cwd, h.pipe⟩
  · rcases l with _ | ⟨x, l⟩
    · rcases r with _ | r <;> rcases goal with _ | goal <;> simp_all
    · rcases r with _ | r <;> rcases goal with _ | goal
      · cases hr
      · cases hr
      · cases hg
      · obtain ⟨rfl, -⟩ := List.cons.inj hr
        obtain ⟨rfl, -⟩ := List.cons.inj hg
        rw [Option.map_some, h.inum x List.mem_cons_self]
  · rw [h.ref e, hr]
    rcases r with _ | r
    · rfl
    · by_cases he : r = e <;> simp [he]
  · have hlock := h.locked e
    rcases hb : (s'.icache e).locked
    · rfl
    · cases hlock.1 hb

theorem namex_reached (hq : Quiet s) (ht : Tree s) (hc : s.cwd p = some cwd)
    (hpos : 0 < (s.icache cwd).ref) (path : List ℕ) (par : Bool) :
    Short s (.panic "iget: no inodes") ∧ namex p path par s = .error (.panic "iget: no inodes") ∨
    ∃ r s', namex p path par s = .ok (r, s') ∧
      Reached s s' ((resolve s.fs par (startInum s cwd path) (components path)).map Prod.fst) (r.map Prod.fst) ∧
      r.map Prod.snd = (resolve s.fs par (startInum s cwd path) (components path)).map Prod.snd := by
  rcases namex_total hq ht hc hpos path par s rfl with ⟨e, he, hshort⟩ | ⟨r, s', he, hfound⟩
  · obtain ⟨rfl, hfew⟩ := hshort
    exact .inl ⟨⟨rfl, hfew⟩, he⟩
  · refine .inr ⟨r, s', he, ?_⟩
    rcases hfound with ⟨rfl, hgoal, h⟩ | ⟨e, j, name, rfl, hgoal, h⟩
    · rw [hgoal]
      exact ⟨h.reached rfl rfl, rfl⟩
    · rw [hgoal]
      exact ⟨h.reached rfl rfl, rfl⟩

/-- **Path resolution follows the components** of the path. -/
theorem path_resolution (hq : Quiet s) (ht : Tree s) (hc : s.cwd p = some cwd)
    (hpos : 0 < (s.icache cwd).ref) (path : List ℕ) : Resolves s p cwd path where
  skipelem mem k a h := Bytes.yields_components h
  namei := by
    rcases namex_reached hq ht hc hpos path false with ⟨hshort, he⟩ | ⟨r, s', he, hr, -⟩
    · refine .inl ⟨hshort, ?_⟩
      change (namex p path false s).bind _ = _
      rw [he]
      rfl
    · have hwalk : (resolve s.fs false (startInum s cwd path) (components path)).map Prod.fst =
          walk s.fs (startInum s cwd path) (components path) := by
        rw [resolve, if_neg Bool.false_ne_true]
        cases walk s.fs (startInum s cwd path) (components path) <;> rfl
      rw [hwalk] at hr
      refine .inr ⟨r.map Prod.fst, s', ?_, hr, ?_⟩
      · change (namex p path false s).bind _ = _
        rw [he]
        rfl
      · rw [← walk_eq_none, ← hr.inum]
        simp only [Option.map_eq_none_iff]
  nameiparent := by
    rcases namex_reached hq ht hc hpos path true with hshort | ⟨r, s', he, hr, hname⟩
    · exact .inl hshort
    · refine .inr ⟨r, s', he, hr, hname, ?_⟩
      have hnone := hname
      rw [resolve, if_pos rfl] at hnone
      rw [← walkParent_eq_none, ← Option.map_eq_none_iff (f := Prod.snd), hnone, Option.map_eq_none_iff]

end Resolution

/-- `dirlink` of the directory 2 into itself, as `a`. -/
theorem dirStart_linked : ∃ fs, EntryPut dirStart fs 2 0 (dirent [97] 2) ∧
    Fs.Stored dirStart fs 2 0 (dirent [97] 2) := by
  have hdir := dirStart_isMap.isDir
  have hok := dirStart_writes (length_dirent [97] 2) "dirlink"
  have hdev : (dirStart.ip 2).type ≠ Fs.T_DEV := by
    rw [hdir.type]
    decide
  rcases writeDirent_cases hdir (Nat.zero_le _) (length_dirent [97] 2) "dirlink" with
    he | ⟨-, he⟩ | ⟨fs, he, hput⟩
  · rw [he] at hok
    cases hok
  · rw [he] at hok
    cases hok
  · rcases Fs.writei_cases hdir.sound hdir.lt hdir.cached hdev (show 16 * 0 < 2 ^ 32 by decide)
      (show (dirent [97] 2).length < 2 ^ 32 by rw [length_dirent]; decide) with
      ⟨-, hw⟩ | ⟨-, ⟨hw, -⟩ | ⟨fs', hw, hst, -⟩⟩
    · rw [writeDirent, hw] at he
      cases he
    · rw [writeDirent, hw] at he
      cases he
    · rw [writeDirent, hw, length_dirent] at he
      obtain rfl : fs' = fs := Except.ok.inj he
      exact ⟨fs', hput, hst⟩

/-- The small disk `fs`; the first process is in the directory 2. -/
def pathStart (fs : Store) : Sys where
  fs := fs
  icache e := if e = 0 then { dev := ROOTDEV, inum := ROOTINO, ref := 1 }
    else if e = 1 then { dev := ROOTDEV, inum := 2, ref := 1 } else {}
  files := filesBoot
  cwd p := if p.val = 0 then some 1 else none
  pipe _ := {}

theorem pathStart_used {fs : Store} {e : ℕ} (hpos : 0 < ((pathStart fs).icache e).ref) :
    e = 0 ∨ e = 1 := by
  by_contra hne
  rw [not_or] at hne
  have hnone : (pathStart fs).icache e = {} := (if_neg hne.1).trans (if_neg hne.2)
  rw [hnone] at hpos
  cases hpos

theorem pathStart_quiet {fs : Store} (hs : Sound fs) (hn : fs.sb.ninodes = 8) :
    Quiet (pathStart fs) := by
  refine ⟨hs, fun e => ?_, fun e hpos => ?_, fun e e' hpos hpos' hinum => ?_⟩
  · rw [pathStart]
    dsimp only
    split_ifs <;> rfl
  · have hlt : ∀ i < 3, i < (pathStart fs).fs.sb.ninodes := fun i hi => by
      show i < fs.sb.ninodes
      omega
    rcases pathStart_used hpos with rfl | rfl
    · exact ⟨by decide, rfl, hlt 1 (by decide)⟩
    · exact ⟨by decide, rfl, hlt 2 (by decide)⟩
  · rcases pathStart_used hpos with rfl | rfl <;> rcases pathStart_used hpos' with rfl | rfl
    · rfl
    · cases hinum
    · cases hinum
    · rfl

/-- The path `a/a`, whose elements both lead to the directory itself. -/
theorem path_resolution_loop : ∃ fs, walk fs 2 (components [97, SLASH, 97]) = some 2 ∧
    Resolves (pathStart fs) ⟨0, Nat.succ_pos 63⟩ 1 [97, SLASH, 97] := by
  obtain ⟨fs, hput, hst⟩ := dirStart_linked
  have hn : fs.sb.ninodes = 8 := by
    rw [hst.sb]
    rfl
  have hent : entries fs 2 = 1 := by
    rw [hput.entries, show entries dirStart 2 = 0 by decide +kernel]
    rfl
  have hinum : inumAt fs 2 0 = 2 := by
    rw [hput.inumAt 0 (by omega), if_pos rfl, dirent_inum _ (by decide)]
  have hname : nameAt fs 2 0 = nameOf [97] := by
    rw [hput.nameAt 0 (by omega), if_pos rfl, dirent_name]
  have hlook : lookup fs 2 [97] = some 2 := by
    have hholds : holdsName fs 2 [97] 0 = true := decide_eq_true ⟨by rw [hinum]; decide, hname.symm⟩
    rw [lookup, hent, List.range_one, List.find?_cons_of_pos hholds, Option.map_some, hinum]
  have htype : (fs.ip 2).type = T_DIR := hput.isDir.type
  have hip : ∀ i < 8, i ≠ 2 → fs.ip i = dirStart.ip i := fun i hi hne => (hst.other i hi hne).1
  have hwalk : walk fs 2 (components [97, SLASH, 97]) = some 2 := by
    rw [show components [97, SLASH, 97] = [[97], [97]] by decide, walk, if_pos htype, hlook,
      Option.bind_some, walk, if_pos htype, hlook, Option.bind_some, walk]
  refine ⟨fs, hwalk, ?_⟩
  have hdir : ∀ i < 8, i ≠ 2 → (dirStart.ip i).type ≠ T_DIR := by decide +kernel
  have honly : ∀ i < 8, (fs.ip i).type = T_DIR → i = 2 := fun i hi ht => by
    by_contra hne
    exact hdir i hi hne (hip i hi hne ▸ ht)
  have hroot : (fs.ip ROOTINO).type ≠ 0 := by
    rw [hip 1 (by decide) (by decide)]
    decide +kernel
  have hself : (fs.ip 2).type ≠ 0 := by
    rw [htype]
    decide
  have ht : Tree (pathStart fs) := by
    have hlt : ROOTINO < (pathStart fs).fs.sb.ninodes := hn ▸ (by decide : ROOTINO < 8)
    refine ⟨⟨hlt, hroot, .inr ⟨0, Nat.zero_lt_one, rfl⟩⟩,
      fun e hpos => ?_, fun i hi hd => ?_, fun i hi hd k hk _ => ?_⟩
    · rcases pathStart_used hpos with rfl | rfl
      · exact hroot
      · exact hself
    · obtain rfl := honly i (hn ▸ hi) hd
      exact hput.isDir.size
    · obtain rfl := honly i (hn ▸ hi) hd
      have hk' : k < entries fs 2 := hk
      obtain rfl : k = 0 := by omega
      rw [show inumAt (pathStart fs).fs 2 0 = 2 from hinum]
      exact ⟨hi, hself, .inr ⟨1, Nat.zero_lt_one, rfl⟩⟩
  exact path_resolution (pathStart_quiet hst.sound hn) ht rfl
    (show 0 < ((pathStart fs).icache 1).ref from Nat.zero_lt_one) _

end Sysfile

end OsPlayground
