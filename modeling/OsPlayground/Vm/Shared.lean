import OsPlayground.Lib.Run
import OsPlayground.Vm.Owned

/-!
# Shared pages

`getshared`, `releaseshared` and the counts of `sharedmemo`, for any number of processes. Every
index into a table is checked: what lies behind a table is not part of the model.

* `sharevm`, `desharevm`, `getshared`, `releaseshared`: as the code does it.
* `Consistent`: what a call of `getshared` should leave, whether memory runs out or not.
* **`getshared_iff`**: when it does.
-/

namespace OsPlayground

/-- Why the kernel stops: a panic, or an access to the entry `i` of a table that does not have it. -/
inductive Fault
  | panic (s : Panic)
  | outside (i : ℕ)

/-- What a process has of shared pages. -/
structure Task where
  pgdir : Pgdir
  /-- `sharedrec[idx] == 's'`. -/
  sharedrec : ℕ → Bool

/-- The shared pages, and what every process has of them. -/
structure Sharing where
  mem : Kmem
  /-- `sharedmemo.shared`. -/
  shared : ℕ → Frame
  /-- `sharedmemo.recs`. -/
  recs : ℕ → BitVec 32
  procs : ℕ → Task

namespace Sharing

/-- Process `p` becomes `t`. -/
def setProc (p : ℕ) (t : Task) (s : Sharing) : Sharing :=
  { s with procs := Function.update s.procs p t }

/-! ## The code -/

/-- The second half of `sharevm`, which maps the frame `f`. -/
def shareMap (idx : ℕ) (f : Frame) (d : Pgdir) (s : Sharing) : Except Fault (Pgdir × Sharing) :=
  match mappages d (winPage idx * PGSIZE) PGSIZE (f * PGSIZE) true true s.mem with
  | .error e => .error (.panic e)
  | .ok (m, d, true) =>
    .ok (d, { s with mem := m, recs := Function.update s.recs idx (s.recs idx + 1) })
  | .ok (m, d, false) =>
    -- "sharevm out of memory (2)"
    match kfree f m with
    | .error e => .error (.panic e)
    | .ok m => .ok (d, { s with mem := m })

/-- `sharevm`. -/
def sharevm (d : Pgdir) (idx : ℕ) (s : Sharing) : Except Fault (Pgdir × Sharing) :=
  if MAXSHAREDPG ≤ idx then .error (.outside idx)
  else if s.recs idx ≠ 0 then shareMap idx (s.shared idx) d s
  else
    match kalloc s.mem with
    -- "sharevm out of memory"
    | (m, none) => .ok (d, { s with mem := m })
    | (m, some f) =>
      shareMap idx f d { s with mem := m.memset f 0, shared := Function.update s.shared idx f }

/-- `desharevm`. -/
def desharevm (idx : ℕ) (s : Sharing) : Except Fault Sharing :=
  if MAXSHAREDPG ≤ idx then .error (.outside idx)
  else if s.recs idx = 0 then .ok s
  else
    let s : Sharing := { s with recs := Function.update s.recs idx (s.recs idx - 1) }
    if s.recs idx = 0 then
      match kfree (s.shared idx) s.mem with
      | .error e => .error (.panic e)
      | .ok m => .ok { s with mem := m }
    else .ok s

/-- `getshared` by the process `p`, with the address that it returns. -/
def getshared (p idx : ℕ) (s : Sharing) : Except Fault (Sharing × ℕ) :=
  if MAXSHAREDPG ≤ idx then .error (.outside idx)
  else if (s.procs p).sharedrec idx then .ok (s, winPage idx * PGSIZE)
  else
    match sharevm (s.procs p).pgdir idx s with
    | .error e => .error e
    | .ok (d, s) =>
      .ok (s.setProc p ⟨d, Function.update (s.procs p).sharedrec idx true⟩, winPage idx * PGSIZE)

/-- `releaseshared` by the process `p`. The page stays mapped. -/
def releaseshared (p idx : ℕ) (s : Sharing) : Except Fault Sharing :=
  if MAXSHAREDPG ≤ idx then .error (.outside idx)
  else if (s.procs p).sharedrec idx then
    desharevm idx (s.setProc p
      ⟨(s.procs p).pgdir, Function.update (s.procs p).sharedrec idx false⟩)
  else .ok s

/-! ## What a call should leave -/

/-- The entry that `sharevm` makes. -/
def entryOf (f : Frame) : Option Pte := some ⟨f, true, true⟩

/-- The process `p` has the page `idx`. -/
def Holds (p idx : ℕ) (s : Sharing) : Prop :=
  (s.procs p).sharedrec idx = true ∧
    (s.procs p).pgdir.lookup (winPage idx) = entryOf (s.shared idx)

/-- The call took the page: it is mapped and counted. -/
def Took (p idx : ℕ) (s t : Sharing) : Prop :=
  t.Holds p idx ∧ (t.recs idx).toNat = (s.recs idx).toNat + 1

/-- Some process other than `p` maps the frame `f`. -/
def MappedByOther (p : ℕ) (f : Frame) (s : Sharing) : Prop :=
  ∃ q ≠ p, ∃ v e, (s.procs q).pgdir.lookup v = some e ∧ e.frame = f

/-- The call did nothing, except that it may have added page tables. -/
structure Untouched (p : ℕ) (s t : Sharing) : Prop where
  recs : t.recs = s.recs
  shared : t.shared = s.shared
  sharedrec : ∀ q, (t.procs q).sharedrec = (s.procs q).sharedrec
  lookup : ∀ q v, (t.procs q).pgdir.lookup v = (s.procs q).pgdir.lookup v
  kept : ∀ f, s.MappedByOther p f → f ∉ s.mem.freelist → f ∉ t.mem.freelist

/-- With the right frames free, `getshared` gives the page. -/
def CanShare (p idx : ℕ) (s : Sharing) : Prop :=
  ∃ m t a, getshared p idx { s with mem := m } = .ok (t, a) ∧ t.Holds p idx

/-- `getshared(idx)` by the process `p` takes the page, or does nothing and can be called again. -/
def Consistent (p idx : ℕ) (s : Sharing) : Prop :=
  ∃ t a, getshared p idx s = .ok (t, a) ∧
    (Took p idx s t ∨ Untouched p s t ∧ t.CanShare p idx)

/-- How many frames `sharevm` takes: the page for its first holder, and a page table. -/
def need (d : Pgdir) (idx : ℕ) (s : Sharing) : ℕ :=
  (if s.recs idx = 0 then 1 else 0) + if d.pde (winPage idx / NPTENTRIES) = none then 1 else 0

/-- The page is held already, or it is not mapped and can be. -/
def Ready (p idx : ℕ) (s : Sharing) : Prop :=
  if (s.procs p).sharedrec idx then
    (s.procs p).pgdir.lookup (winPage idx) = entryOf (s.shared idx)
  else
    (s.procs p).pgdir.lookup (winPage idx) = none ∧
      need (s.procs p).pgdir idx s ≤ s.mem.freelist.length ∧ s.recs idx ≠ BitVec.allOnes 32

/-! ## Mapping the page -/

section Map

variable {m : Kmem} {d : Pgdir} {v idx : ℕ} {f : Frame} {s : Sharing}

theorem mapPage_eq (d : Pgdir) (v : ℕ) (f : Frame) (m : Kmem) :
    mappages d (v * PGSIZE) PGSIZE (f * PGSIZE) true true m =
      match walkpgdir d v true m with
      | (m, d, none) => .ok (m, d, false)
      | (m, d, some tab) =>
        if (tab.pte (v % NPTENTRIES)).isSome then .error "remap"
        else .ok (m, d.setPte v tab (entryOf f), true) := by
  rw [mappages_page]
  rfl

theorem mapPage_remap (h : d.lookup v ≠ none) :
    mappages d (v * PGSIZE) PGSIZE (f * PGSIZE) true true m = .error "remap" := by
  rw [mapPage_eq]
  unfold Pgdir.lookup at h
  cases hp : d.pde (v / NPTENTRIES) with
  | none => simp [hp] at h
  | some tab =>
    have hpte : (tab.pte (v % NPTENTRIES)).isSome := by
      rw [Option.isSome_iff_ne_none]
      simpa [hp] using h
    simp only [walkpgdir, hp, hpte, if_true]

theorem mapPage_full (hp : d.pde (v / NPTENTRIES) = none) (hm : m.freelist = []) :
    mappages d (v * PGSIZE) PGSIZE (f * PGSIZE) true true m = .ok (m, d, false) := by
  have hk : kalloc m = (m, none) := by simp [kalloc, hm]
  rw [mapPage_eq]
  simp only [walkpgdir, hp, hk, if_true]

theorem mapPage_ok (hl : d.lookup v = none)
    (hroom : d.pde (v / NPTENTRIES) = none → m.freelist ≠ []) :
    ∃ m' d', mappages d (v * PGSIZE) PGSIZE (f * PGSIZE) true true m = .ok (m', d', true) ∧
      ∀ x, d'.lookup x = if x = v then entryOf f else d.lookup x := by
  rw [mapPage_eq]
  cases hp : d.pde (v / NPTENTRIES) with
  | none =>
    cases hm : m.freelist with
    | nil => exact absurd hm (hroom hp)
    | cons g l =>
      have hk : kalloc m = ({ m with freelist := l }, some g) := by simp [kalloc, hm]
      have hnew : (d.setPde (v / NPTENTRIES) ⟨g, fun _ => none⟩).pde (v / NPTENTRIES) =
          some ⟨g, fun _ => none⟩ := by simp [Pgdir.setPde]
      refine ⟨_, _, by simp only [walkpgdir, hp, hk, if_true]; rfl, fun x => ?_⟩
      rw [Pgdir.lookup_setPte hnew, Pgdir.lookup_setPde hp]
  | some tab =>
    have hpte : tab.pte (v % NPTENTRIES) = none := by rwa [Pgdir.lookup_of_pde hp] at hl
    refine ⟨_, _, by simp only [walkpgdir, hp, hpte]; rfl, fun x => ?_⟩
    rw [Pgdir.lookup_setPte hp]

end Map

/-! ## What `sharevm` does -/

section Share

variable {d d' : Pgdir} {idx p : ℕ} {f : Frame} {s t : Sharing}

theorem shareMap_recs (h : shareMap idx f d s = .ok (d', t)) :
    t.recs = s.recs ∨ d.lookup (winPage idx) = none ∧
      (d.pde (winPage idx / NPTENTRIES) = none → s.mem.freelist ≠ []) := by
  by_cases hl : d.lookup (winPage idx) = none
  · by_cases hroom : d.pde (winPage idx / NPTENTRIES) = none ∧ s.mem.freelist = []
    · left
      rw [shareMap, mapPage_full hroom.1 hroom.2] at h
      dsimp only at h
      split at h
      · cases h
      · obtain ⟨rfl, rfl⟩ := Prod.mk.inj (Except.ok.inj h)
        rfl
    · exact Or.inr ⟨hl, fun hp hm => hroom ⟨hp, hm⟩⟩
  · rw [shareMap, mapPage_remap hl] at h
    cases h

theorem shareMap_ok (hl : d.lookup (winPage idx) = none)
    (hroom : d.pde (winPage idx / NPTENTRIES) = none → s.mem.freelist ≠ []) :
    ∃ m d', shareMap idx f d s =
        .ok (d', { s with mem := m, recs := Function.update s.recs idx (s.recs idx + 1) }) ∧
      d'.lookup (winPage idx) = entryOf f := by
  obtain ⟨m, d', hmap, hl'⟩ := mapPage_ok (f := f) hl hroom
  refine ⟨m, d', by rw [shareMap, hmap], ?_⟩
  rw [hl', if_pos rfl]

theorem sharevm_recs (hidx : idx < MAXSHAREDPG) (h : sharevm d idx s = .ok (d', t)) :
    t.recs = s.recs ∨ d.lookup (winPage idx) = none ∧ need d idx s ≤ s.mem.freelist.length := by
  rw [sharevm, if_neg (by omega)] at h
  unfold need
  by_cases hrecs : s.recs idx = 0
  · rw [if_neg (not_not.2 hrecs)] at h
    rw [if_pos hrecs]
    cases hm : s.mem.freelist with
    | nil =>
      have hk : kalloc s.mem = (s.mem, none) := by simp [kalloc, hm]
      rw [hk] at h
      obtain ⟨-, rfl⟩ := Prod.mk.inj (Except.ok.inj h)
      exact Or.inl rfl
    | cons g l =>
      have hk : kalloc s.mem = ({ s.mem with freelist := l }, some g) := by simp [kalloc, hm]
      rw [hk] at h
      refine (shareMap_recs h).imp_right fun ⟨hl, hroom⟩ => ⟨hl, ?_⟩
      rw [List.length_cons]
      split_ifs with hp
      · have := List.length_pos_of_ne_nil (hroom hp)
        change 0 < l.length at this
        omega
      · omega
  · rw [if_pos hrecs] at h
    rw [if_neg hrecs, Nat.zero_add]
    refine (shareMap_recs h).imp_right fun ⟨hl, hroom⟩ => ⟨hl, ?_⟩
    split_ifs with hp
    · exact List.length_pos_of_ne_nil (hroom hp)
    · exact Nat.zero_le _

theorem sharevm_ok (hidx : idx < MAXSHAREDPG) (hl : d.lookup (winPage idx) = none)
    (hneed : need d idx s ≤ s.mem.freelist.length) :
    ∃ d' t, sharevm d idx s = .ok (d', t) ∧
      t.recs = Function.update s.recs idx (s.recs idx + 1) ∧
      d'.lookup (winPage idx) = entryOf (t.shared idx) := by
  rw [sharevm, if_neg (by omega)]
  unfold need at hneed
  by_cases hrecs : s.recs idx = 0
  · rw [if_pos hrecs] at hneed
    rw [if_neg (not_not.2 hrecs)]
    cases hm : s.mem.freelist with
    | nil =>
      rw [hm, List.length_nil] at hneed
      omega
    | cons g l =>
      have hk : kalloc s.mem = ({ s.mem with freelist := l }, some g) := by simp [kalloc, hm]
      rw [hk]
      have hroom : d.pde (winPage idx / NPTENTRIES) = none → l ≠ [] := by
        rintro hp rfl
        rw [hm, if_pos hp, List.length_singleton] at hneed
        omega
      obtain ⟨m, d', hmap, hl'⟩ := shareMap_ok (f := g) (s := { s with
        mem := Kmem.memset g 0 { s.mem with freelist := l }
        shared := Function.update s.shared idx g }) hl hroom
      refine ⟨d', _, hmap, rfl, hl'.trans ?_⟩
      dsimp only
      rw [Function.update_self]
  · rw [if_neg hrecs, Nat.zero_add] at hneed
    rw [if_pos hrecs]
    have hroom : d.pde (winPage idx / NPTENTRIES) = none → s.mem.freelist ≠ [] := by
      intro hp hm
      rw [hm, if_pos hp] at hneed
      exact absurd hneed (by decide)
    obtain ⟨m, d', hmap, hl'⟩ := shareMap_ok (f := s.shared idx) hl hroom
    exact ⟨d', _, hmap, rfl, hl'⟩

/-- Only the window page of `idx` is mapped, and only for the caller. -/
theorem shareMap_frame (hidx : winPage idx < NPAGES) (h : shareMap idx f d s = .ok (d', t)) :
    t.procs = s.procs ∧ ∀ v ≠ winPage idx, d'.lookup v = d.lookup v := by
  unfold shareMap at h
  rcases hmap : mappages d (winPage idx * PGSIZE) PGSIZE (f * PGSIZE) true true s.mem with
    e | ⟨m, d₁, ok⟩
  · rw [hmap] at h
    cases h
  · obtain ⟨-, -, hl⟩ := mapPage_spec hidx hmap
    have hframe : ∀ v ≠ winPage idx, d₁.lookup v = d.lookup v := fun v hv => by
      rw [hl, if_neg fun h => hv h.2]
    rw [hmap] at h
    cases ok with
    | true =>
      obtain ⟨rfl, rfl⟩ := Prod.mk.inj (Except.ok.inj h)
      exact ⟨rfl, hframe⟩
    | false =>
      dsimp only at h
      split at h
      · cases h
      · obtain ⟨rfl, rfl⟩ := Prod.mk.inj (Except.ok.inj h)
        exact ⟨rfl, hframe⟩

theorem sharevm_frame (h : sharevm d idx s = .ok (d', t)) :
    t.procs = s.procs ∧ ∀ v ≠ winPage idx, d'.lookup v = d.lookup v := by
  have hpage : winPage idx < NPAGES :=
    (Nat.sub_le _ _).trans_lt (show KERNBASE / PGSIZE < NPAGES by decide)
  unfold sharevm at h
  split_ifs at h
  · exact shareMap_frame hpage h
  · split at h
    · obtain ⟨rfl, rfl⟩ := Prod.mk.inj (Except.ok.inj h)
      exact ⟨rfl, fun _ _ => rfl⟩
    · obtain ⟨hprocs, hl⟩ := shareMap_frame hpage h
      exact ⟨hprocs, hl⟩

theorem getshared_frame {a : ℕ} (h : getshared p idx s = .ok (t, a)) (q v : ℕ)
    (hv : v ≠ winPage idx) : (t.procs q).pgdir.lookup v = (s.procs q).pgdir.lookup v := by
  unfold getshared at h
  split_ifs at h
  · obtain ⟨rfl, -⟩ := Prod.mk.inj (Except.ok.inj h)
    rfl
  · split at h
    · cases h
    · rename_i d u hs
      obtain ⟨hprocs, hl⟩ := sharevm_frame hs
      obtain ⟨rfl, -⟩ := Prod.mk.inj (Except.ok.inj h)
      by_cases hq : q = p
      · subst hq
        simpa [setProc] using hl v hv
      · simp [setProc, hq, hprocs]

/-- A release changes no page table. -/
theorem releaseshared_lookup (h : releaseshared p idx s = .ok t) (q v : ℕ) :
    (t.procs q).pgdir.lookup v = (s.procs q).pgdir.lookup v := by
  have hset : ∀ b, ((s.setProc p ⟨(s.procs p).pgdir, b⟩).procs q).pgdir = (s.procs q).pgdir := by
    intro b
    by_cases hq : q = p
    · subst hq
      simp [setProc]
    · simp [setProc, hq]
  unfold releaseshared desharevm at h
  split_ifs at h
  · obtain rfl := Except.ok.inj h
    rw [hset]
  · dsimp only at h
    split_ifs at h
    · split at h
      · cases h
      · obtain rfl := Except.ok.inj h
        exact congrArg (fun d : Pgdir => d.lookup v) (hset _)
    · obtain rfl := Except.ok.inj h
      exact congrArg (fun d : Pgdir => d.lookup v) (hset _)
  · obtain rfl := Except.ok.inj h
    rfl

theorem getshared_marked (hidx : idx < MAXSHAREDPG) (h : (s.procs p).sharedrec idx = true) :
    getshared p idx s = .ok (s, winPage idx * PGSIZE) := by
  rw [getshared, if_neg (by omega), if_pos h]

theorem consistent_marked (hidx : idx < MAXSHAREDPG) (h : (s.procs p).sharedrec idx = true) :
    s.Consistent p idx ↔ (s.procs p).pgdir.lookup (winPage idx) = entryOf (s.shared idx) := by
  constructor
  · rintro ⟨t, a, ht, hor⟩
    rw [getshared_marked hidx h] at ht
    obtain ⟨rfl, -⟩ := Prod.mk.inj (Except.ok.inj ht)
    rcases hor with ⟨hh, -⟩ | ⟨-, m, u, b, hu, hh⟩
    · exact hh.2
    · have hm : getshared p idx { s with mem := m } = .ok ({ s with mem := m }, _) :=
        getshared_marked hidx h
      rw [hm] at hu
      obtain ⟨rfl, -⟩ := Prod.mk.inj (Except.ok.inj hu)
      exact hh.2
  · intro hl
    refine ⟨s, _, getshared_marked hidx h, Or.inr ⟨⟨rfl, rfl, fun _ => rfl, fun _ _ => rfl,
      fun _ _ hf => hf⟩, s.mem, s, _, getshared_marked hidx h, h, hl⟩⟩

theorem toNat_add_one {x : BitVec 32} : (x + 1).toNat = x.toNat + 1 ↔ x ≠ BitVec.allOnes 32 := by
  rw [ne_eq, ← BitVec.toNat_inj, BitVec.toNat_allOnes, BitVec.toNat_add]
  have := x.isLt
  have hone : BitVec.toNat (1 : BitVec 32) = 1 := rfl
  rw [hone]
  omega

theorem consistent_unmarked (hidx : idx < MAXSHAREDPG) (h : (s.procs p).sharedrec idx = false) :
    s.Consistent p idx ↔ (s.procs p).pgdir.lookup (winPage idx) = none ∧
      need (s.procs p).pgdir idx s ≤ s.mem.freelist.length ∧ s.recs idx ≠ BitVec.allOnes 32 := by
  have hcall : getshared p idx s = match sharevm (s.procs p).pgdir idx s with
      | .error e => .error e
      | .ok (d, t) => .ok (t.setProc p ⟨d, Function.update (t.procs p).sharedrec idx true⟩,
          winPage idx * PGSIZE) := by
    rw [getshared, if_neg (by omega), h, if_neg Bool.false_ne_true]
  constructor
  · rintro ⟨t, a, ht, hor⟩
    rw [hcall] at ht
    rcases hs : sharevm (s.procs p).pgdir idx s with e | ⟨d, u⟩
    · rw [hs] at ht
      cases ht
    · rw [hs] at ht
      obtain ⟨rfl, -⟩ := Prod.mk.inj (Except.ok.inj ht)
      have hmarked : ((u.setProc p ⟨d, Function.update (u.procs p).sharedrec idx true⟩).procs
          p).sharedrec idx = true := by simp [setProc]
      rcases hor with ⟨-, hrecs⟩ | ⟨hsame, -⟩
      · rcases sharevm_recs hidx hs with hkeep | ⟨hl, hneed⟩
        · have hkeep' := congrFun hkeep idx
          change (u.recs idx).toNat = _ at hrecs
          rw [hkeep'] at hrecs
          omega
        · refine ⟨hl, hneed, ?_⟩
          obtain ⟨d', t', ht', hr', -⟩ := sharevm_ok hidx hl hneed
          rw [ht'] at hs
          obtain ⟨-, rfl⟩ := Prod.mk.inj (Except.ok.inj hs)
          change (t'.recs idx).toNat = _ at hrecs
          rw [hr', Function.update_self] at hrecs
          exact toNat_add_one.1 hrecs
      · -- the mark is set in any case
        rw [hsame.sharedrec p, h] at hmarked
        cases hmarked
  · rintro ⟨hl, hneed, hmax⟩
    obtain ⟨d, u, hs, hrecs, hl'⟩ := sharevm_ok hidx hl hneed
    rw [hs] at hcall
    refine ⟨_, _, hcall, Or.inl ⟨⟨?_, ?_⟩, ?_⟩⟩
    · simp [setProc]
    · simpa [setProc] using hl'
    · change (u.recs idx).toNat = _
      rw [hrecs, Function.update_self]
      exact toNat_add_one.2 hmax

/-- **`getshared`** takes the page or does nothing if and only if the page is held already, or is not
mapped and there are frames for it. -/
theorem getshared_iff (p : ℕ) {idx : ℕ} (hidx : idx < MAXSHAREDPG) (s : Sharing) :
    s.Consistent p idx ↔ s.Ready p idx := by
  unfold Ready
  cases h : (s.procs p).sharedrec idx with
  | true => exact consistent_marked hidx h
  | false => exact consistent_unmarked hidx h

/-- The first page, with two frames free. -/
theorem getshared_iff_first :
    let d : Pgdir := ⟨0, fun _ => none⟩
    let s : Sharing := ⟨⟨[300, 301], fun _ _ => 0⟩, fun _ => 0, fun _ => 0,
      fun _ => ⟨d, fun _ => false⟩⟩
    s.Consistent 0 3 ↔ s.Ready 0 3 :=
  getshared_iff 0 (by decide) _

end Share

/-! ## Runs -/

/-- The state before the first call. -/
structure Start (s : Sharing) : Prop where
  recs : ∀ idx, s.recs idx = 0
  sharedrec : ∀ p idx, (s.procs p).sharedrec idx = false
  lookup : ∀ p, ∀ idx < MAXSHAREDPG, (s.procs p).pgdir.lookup (winPage idx) = none

end Sharing

/-- A call, or a frame that is taken for something else. -/
inductive ShareEvent
  | getshared (p idx : ℕ)
  | releaseshared (p idx : ℕ)
  | kalloc

/-- One step, or `none` when the kernel stops. -/
def shareStep : ShareEvent → Sharing → Option Sharing
  | .getshared p idx, s => (s.getshared p idx).toOption.map Prod.fst
  | .releaseshared p idx, s => (s.releaseshared p idx).toOption
  | .kalloc, s => some { s with mem := (kalloc s.mem).1 }

namespace Sharing

/-- With two free frames a first process takes a page and a page table. The second process then finds
no frame for its page table, and the page of the first is freed. -/
theorem not_consistent : ¬ ∀ (s t : Sharing) (es : List ShareEvent), s.Start →
    Lib.run shareStep es s = some t → ∀ p, ∀ idx < MAXSHAREDPG, t.Consistent p idx := by
  intro h
  let d : Pgdir := ⟨0, fun _ => none⟩
  let s : Sharing := ⟨⟨[300, 301], fun _ _ => 0⟩, fun _ => 0, fun _ => 0, fun _ => ⟨d, fun _ => false⟩⟩
  obtain ⟨t, ht, hfree, hrecs, hproc⟩ : ∃ t, shareStep (.getshared 0 0) s = some t ∧
      t.mem.freelist = [] ∧ t.recs 0 = 1 ∧ t.procs 1 = ⟨d, fun _ => false⟩ :=
    ⟨_, rfl, rfl, rfl, rfl⟩
  have hrun : Lib.run shareStep [.getshared 0 0] s = some t := by
    rw [Lib.run, ht]
    rfl
  have hc := h s t _ ⟨fun _ => rfl, fun _ _ => rfl, fun _ _ _ => rfl⟩ hrun 1 0 (by decide)
  rw [consistent_unmarked (by decide) (by rw [hproc])] at hc
  have hneed := hc.2.1
  rw [need, hproc, hrecs, hfree, if_neg (by decide), if_pos rfl] at hneed
  exact absurd hneed (by decide)

end Sharing

end OsPlayground
