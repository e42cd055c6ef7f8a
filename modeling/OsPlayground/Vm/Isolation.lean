import OsPlayground.Proc.Holding
import OsPlayground.Vm.Space

/-!
# The memory of all processes

The process table with the free list and with the address space and kernel stack of every slot: fork,
sbrk, exec, exit, wait and the stores of user programs, in any order on any CPUs, while `kalloc` may
find nothing at any time. No process uses a shared page.

* `SpaceEvent`, `Spaces.step`: what can happen next, as the code does it.
* `Spaces.Isolated`: no frame has two owners, none in use is free, and user programs reach their own
  pages only.
* **`step_outcome`**: each event trades the frames of one slot with the free list.
* **`isolated_run`**, **`private_run`**, **`whole_run`**: what holds in every run.
-/

namespace OsPlayground

open Lib Finset

/-! ## The code -/

/-- The process table with the memory of every process. -/
structure Spaces where
  table : Ptable
  kmem : Kmem
  sz : Slot → ℕ
  pgdir : Slot → Option Pgdir
  kstack : Slot → Option Frame

/-- What happens next. The system calls are those of the process that the CPU `c` runs. -/
inductive SpaceEvent
  /-- An event of the process table that allocates nothing. -/
  | table (e : Event)
  /-- `userinit` with the `k` bytes of `initcode`. -/
  | userinit (init : ℕ → ℕ) (k : ℕ)
  /-- The kernel stack, in `allocproc`. -/
  | allocprocInit (c : ℕ)
  /-- `copyuvm` and what follows it, in `fork`. -/
  | forkCopy (c : ℕ)
  | sbrk (c : ℕ) (n : BitVec 32)
  | exec (c : ℕ) (x : ExecFile) (path : List ℕ) (argv : List (List ℕ))
  /-- The user program stores `b` at `va`. -/
  | store (c : ℕ) (va b : ℕ)

/-- The slot that the `fork` of the process on the CPU `c` fills. -/
def Ptable.child (t : Ptable) (c : ℕ) : Option Slot :=
  (t.myproc c).bind fun p => (t.proc p).call.child

namespace Spaces

/-- `wait` gives back the memory of the zombie `q`. -/
def reap (q : Slot) (s : Spaces) : Except Panic Spaces :=
  match s.kstack q with
  | none => .error "kfree"
  | some k =>
    match kfree k s.kmem with
    | .error e => .error e
    | .ok m =>
      match s.pgdir q with
      | none => .error "freevm: no pgdir"
      | some d =>
        match freevm d m with
        | .error e => .error e
        | .ok m => .ok { s with kmem := m, kstack := Function.update s.kstack q none }

/-- An event of the process table. A child is reaped under `ptable.lock`. -/
def tableStep (e : Event) (s : Spaces) : Except Panic (Option Spaces) :=
  match OsPlayground.step e s.table with
  | none => .ok none
  | some t =>
    match reaped e s.table with
    | none => .ok (some { s with table := t })
    | some q =>
      match s.reap q with
      | .error e => .error e
      | .ok s => .ok (some { s with table := t })

/-- `userinit`. -/
def userinit (init : ℕ → ℕ) (k : ℕ) (s : Spaces) : Except Panic (Option Spaces) :=
  match allocproc s.table, OsPlayground.step .userinit s.table with
  | some (p, _), some t =>
    match kalloc s.kmem with
    | (_, none) => .error "page fault"
    | (m, some ks) =>
      match setupkvm m with
      | .error e => .error e
      | .ok (_, none) => .error "userinit: out of memory?"
      | .ok (m, some d) =>
        match inituvm d init k m with
        | .error e => .error e
        | .ok (m, d) => .ok (some ⟨t, m, Function.update s.sz p PGSIZE,
            Function.update s.pgdir p (some d), Function.update s.kstack p (some ks)⟩)
  | _, _ => .ok none

/-- The kernel stack of the child, in `allocproc`. -/
def allocprocInit (c : ℕ) (s : Spaces) : Except Panic (Option Spaces) :=
  match s.table.child c with
  | none => .ok none
  | some np =>
    match kalloc s.kmem with
    | (m, none) => .ok ((OsPlayground.step (.allocprocInit c false) s.table).map fun t =>
        { s with table := t, kmem := m, kstack := Function.update s.kstack np none })
    | (m, some k) => .ok ((OsPlayground.step (.allocprocInit c true) s.table).map fun t =>
        { s with table := t, kmem := m, kstack := Function.update s.kstack np (some k) })

/-- `copyuvm` in `fork`: the child gets the copy, or gives its stack back. -/
def forkCopy (c : ℕ) (s : Spaces) : Except Panic (Option Spaces) :=
  match s.table.myproc c, s.table.child c, OsPlayground.step (.forkCopy c true) s.table with
  | some p, some np, some t =>
    match s.pgdir p with
    | none => .error "page fault"
    | some pgdir =>
      match copyuvm pgdir (s.sz p) s.kmem with
      | .error e => .error e
      | .ok (m, some d) => .ok (some { s with
          table := t, kmem := m, sz := Function.update s.sz np (s.sz p)
          pgdir := Function.update s.pgdir np (some d) })
      | .ok (m, none) =>
        match s.kstack np with
        | none => .error "kfree"
        | some k =>
          match kfree k m with
          | .error e => .error e
          | .ok m => .ok ((OsPlayground.step (.forkCopy c false) s.table).map fun t => { s with
              table := t, kmem := m, pgdir := Function.update s.pgdir np none
              kstack := Function.update s.kstack np none })
  | _, _, _ => .ok none

/-- A call of the process on the CPU `c` on its own address space. -/
def onSpace (c : ℕ) (s : Spaces)
    (f : Pgdir → ℕ → Except Panic (Option (Kmem × Pgdir × ℕ))) : Except Panic (Option Spaces) :=
  match s.table.caller c with
  | none => .ok none
  | some p =>
    match s.pgdir p with
    | none => .error "page fault"
    | some d =>
      match f d (s.sz p) with
      | .error e => .error e
      | .ok none => .ok none
      | .ok (some (m, d, sz)) => .ok (some { s with
          kmem := m, pgdir := Function.update s.pgdir p (some d), sz := Function.update s.sz p sz })

/-- `growproc`. -/
def sbrk (c : ℕ) (n : BitVec 32) (s : Spaces) : Except Panic (Option Spaces) :=
  s.onSpace c fun d sz =>
    match growproc d sz n s.kmem with
    | .error e => .error e
    | .ok (m, d, sz, _) => .ok (some (m, d, sz))

/-- `exec`, with strings from user memory. -/
def exec (c : ℕ) (x : ExecFile) (path : List ℕ) (argv : List (List ℕ)) (s : Spaces) :
    Except Panic (Option Spaces) :=
  s.onSpace c fun d sz =>
    if ∀ a ∈ argv, a.length < KERNBASE then
      match ExecState.exec x path argv ⟨s.kmem, 0, 0, 1, d, sz, [], 0, 0⟩ with
      | .error e => .error e
      | .ok (e, _) => .ok (some (e.kmem, e.pgdir, e.sz))
    else .ok none

/-- A store by a user program, where the page allows it. -/
def store (c : ℕ) (va b : ℕ) (s : Spaces) : Except Panic (Option Spaces) :=
  s.onSpace c fun d sz =>
    match d.lookup (va / PGSIZE) with
    | none => .ok none
    | some e =>
      if e.w = true ∧ e.u = true then
        .ok (some (s.kmem.write e.frame (va % PGSIZE) 1 fun _ => b, d, sz))
      else .ok none

/-- One step: an error for a kernel panic, `none` for an event that cannot happen. -/
def step : SpaceEvent → Spaces → Except Panic (Option Spaces)
  | .table e, s => if e.plain = true then s.tableStep e else .ok none
  | .userinit init k, s => s.userinit init k
  | .allocprocInit c, s => s.allocprocInit c
  | .forkCopy c, s => s.forkCopy c
  | .sbrk c n, s => s.sbrk c n
  | .exec c x path argv, s => s.exec c x path argv
  | .store c va b, s => s.store c va b

/-- The state after a step that neither panics nor is impossible. -/
def next (e : SpaceEvent) (s : Spaces) : Option Spaces :=
  match step e s with
  | .error _ => none
  | .ok o => o

/-- When `main` calls `userinit`: the pages of `m` are free. -/
def start (m : Kmem) : Spaces := ⟨boot, m, fun _ => 0, fun _ => none, fun _ => none⟩

/-- The process whose address space the event may change. -/
def writer (e : SpaceEvent) (s : Spaces) : Option Slot :=
  match e with
  | .sbrk c _ | .exec c _ _ _ | .store c _ _ => s.table.caller c
  | _ => none

/-! ## Isolation -/

/-- The frames of the slot `q`. -/
def owned (s : Spaces) (q : Slot) : Multiset Frame :=
  match s.table.holding q with
  | .none => 0
  | .stack => entry (s.kstack q) fun k => {k}
  | .space => entry (s.kstack q) (fun k => {k}) + entry (s.pgdir q) Pgdir.frames

/-- The slot `q` has what it should have. -/
structure Kept (s : Spaces) (q : Slot) : Prop where
  stack : s.table.holding q ≠ .none → ∃ k, s.kstack q = some k
  space : s.table.holding q = .space → ∃ d, s.pgdir q = some d ∧ Space d (s.sz q)

/-- No frame has two owners, and none that is owned is free. -/
structure Isolated (s : Spaces) : Prop where
  table : s.table.Inv
  kept : ∀ q, s.Kept q
  valid : Valid (s.kmem.free + ∑ q, s.owned q)

/-- All pages of `q` are there, if it has an address space. -/
def WholeAt (s : Spaces) (q : Slot) : Prop :=
  s.table.holding q = .space → ∀ d, s.pgdir q = some d → Whole d (s.sz q)

/-- A process does not give all its memory back at once, and the first one finds a page table for its
page. -/
def Keeps (e : SpaceEvent) (s : Spaces) : Prop :=
  match e with
  | .sbrk c n => ∀ p, s.table.caller c = some p → s.sz p = 0 ∨ s.sz p + n.toInt ≠ 0
  | .userinit _ _ => s.kmem.free.card ≠ 67
  | _ => True

/-- The slot `o`, if any, has traded with the free list, and nothing else has changed. If `o` has an
address space before and after, it has called for it. -/
structure Acts (e : SpaceEvent) (o : Option Slot) (s s' : Spaces) : Prop where
  table : s'.table.Inv
  holding : ∀ x, o ≠ some x → s'.table.holding x = s.table.holding x
  sz : ∀ x, o ≠ some x → s'.sz x = s.sz x
  pgdir : ∀ x, o ≠ some x → s'.pgdir x = s.pgdir x
  kstack : ∀ x, o ≠ some x → s'.kstack x = s.kstack x
  quiet : o = none → s'.kmem = s.kmem
  trade : ∀ q, o = some q → Exchange s.kmem s'.kmem (s.owned q) (s'.owned q)
  kept : ∀ q, o = some q → s'.Kept q
  cause : ∀ q, o = some q → s.table.holding q = .space → s'.table.holding q = .space →
    s.writer e = some q

/-- What a step may come to. It panics in `userinit`, or where a page is missing. -/
def Outcome (e : SpaceEvent) (s : Spaces) : Except Panic (Option Spaces) → Prop
  | .error _ => (∃ init k, e = .userinit init k) ∨ ¬ ∀ q, s.WholeAt q
  | .ok none => True
  | .ok (some s') => ∃ o, Acts e o s s' ∧
      ((∀ q, s.WholeAt q) → ((∀ q, o = some q → s'.WholeAt q) ↔ s.Keeps e))

section Acts

variable {e : SpaceEvent} {o : Option Slot} {s s' : Spaces} {p q x : Slot} {c : ℕ} {d : Pgdir} {f : Frame}

theorem owned_eq (hh : s'.table.holding x = s.table.holding x) (hp : s'.pgdir x = s.pgdir x)
    (hk : s'.kstack x = s.kstack x) : s'.owned x = s.owned x := by
  rw [owned, owned, hh, hp, hk]

theorem owned_none (h : s.table.holding q = .none) : s.owned q = 0 := by rw [owned, h]

theorem owned_stack {k : Frame} (h : s.table.holding q = .stack) (hk : s.kstack q = some k) :
    s.owned q = {k} := by rw [owned, h, hk, entry_some]

theorem owned_space {k : Frame} (h : s.table.holding q = .space) (hk : s.kstack q = some k)
    (hd : s.pgdir q = some d) : s.owned q = {k} + d.frames := by
  rw [owned, h, hk, hd, entry_some, entry_some]

theorem Isolated.split (q : Slot) :
    s.owned q + ∑ x ∈ Finset.univ.erase q, s.owned x = ∑ x, s.owned x :=
  Finset.add_sum_erase _ _ (Finset.mem_univ q)

theorem Isolated.valid_owned (h : s.Isolated) (q : Slot) : Valid (s.kmem.free + s.owned q) := by
  refine h.valid.mono ?_
  rw [← Isolated.split q, ← add_assoc]
  exact Multiset.le_add_right _ _

theorem Isolated.valid_free (h : s.Isolated) : Valid s.kmem.free :=
  h.valid.mono (Multiset.le_add_right _ _)

theorem Isolated.apart (h : s.Isolated) (hne : x ≠ q) (hf : f ∈ s.owned x) :
    f ∉ s.kmem.free + s.owned q := by
  have hv := h.valid.nodup
  rw [← Isolated.split q, ← add_assoc] at hv
  refine fun hm => not_mem_of_nodup hv hm ?_
  rw [Multiset.mem_sum]
  exact ⟨x, Finset.mem_erase.2 ⟨hne, Finset.mem_univ x⟩, hf⟩

theorem Acts.owned_eq (ha : Acts e o s s') (hx : o ≠ some x) : s'.owned x = s.owned x :=
  Spaces.owned_eq (ha.holding x hx) (ha.pgdir x hx) (ha.kstack x hx)

theorem Acts.exchange (ha : Acts e o s s') :
    Exchange s.kmem s'.kmem (∑ x, s.owned x) (∑ x, s'.owned x) := by
  cases o with
  | none =>
    have hsum : ∑ x, s'.owned x = ∑ x, s.owned x :=
      Finset.sum_congr rfl fun x _ => ha.owned_eq (by simp)
    rw [hsum, ha.quiet rfl]
    exact .refl _ _
  | some q =>
    have hsum : ∑ x ∈ Finset.univ.erase q, s'.owned x = ∑ x ∈ Finset.univ.erase q, s.owned x :=
      Finset.sum_congr rfl fun x hx => ha.owned_eq fun h =>
        (Finset.mem_erase.1 hx).1 (Option.some.inj h).symm
    rw [← Isolated.split q, ← Isolated.split q, hsum]
    exact (ha.trade q rfl).frame _

/-- **Trading with the free list keeps all owners apart.** -/
theorem Acts.isolated (ha : Acts e o s s') (h : s.Isolated) : s'.Isolated where
  table := ha.table
  kept x := by
    by_cases hx : o = some x
    · exact ha.kept x hx
    · have hk := h.kept x
      refine ⟨fun hs => ?_, fun hs => ?_⟩
      · rw [ha.kstack x hx]
        exact hk.stack (by rwa [← ha.holding x hx])
      · rw [ha.pgdir x hx, ha.sz x hx]
        exact hk.space (by rwa [← ha.holding x hx])
  valid := ha.exchange.valid h.valid

theorem Acts.mem_eq (ha : Acts e o s s') (h : s.Isolated) (hx : o ≠ some x) (hf : f ∈ s.owned x) :
    s'.kmem.mem f = s.kmem.mem f := by
  cases o with
  | none => rw [ha.quiet rfl]
  | some q =>
    have hne : x ≠ q := by
      rintro rfl
      exact hx rfl
    exact (ha.trade q rfl).mem f (h.apart hne hf)

theorem Acts.wholeAt (ha : Acts e o s s') (hx : o ≠ some x) : s'.WholeAt x ↔ s.WholeAt x := by
  rw [WholeAt, WholeAt, ha.holding x hx, ha.pgdir x hx, ha.sz x hx]

theorem Acts.whole_iff (ha : Acts e o s s') (hw : ∀ q, s.WholeAt q) :
    (∀ q, s'.WholeAt q) ↔ ∀ q, o = some q → s'.WholeAt q := by
  refine ⟨fun h q _ => h q, fun h q => ?_⟩
  by_cases hq : o = some q
  · exact h q hq
  · exact (ha.wholeAt hq).2 (hw q)

theorem Isolated.running (h : s.Isolated) (hp : (s.table.proc p).state = .running) :
    s.table.holding p = .space ∧ ∃ d k, s.pgdir p = some d ∧ s.kstack p = some k ∧
      Space d (s.sz p) ∧ Valid (s.kmem.free + d.frames) := by
  have hold : s.table.holding p = .space :=
    Ptable.holding_live (by rw [hp]; decide) (by rw [hp]; decide)
  obtain ⟨d, hd, hspace⟩ := (h.kept p).space hold
  obtain ⟨k, hk⟩ := (h.kept p).stack (by rw [hold]; decide)
  refine ⟨hold, d, k, hd, hk, hspace, (h.valid_owned p).mono ?_⟩
  rw [owned_space hold hk hd]
  exact add_le_add_right (Multiset.le_add_left _ _) _

end Acts

/-! ## One event -/

section Steps

variable {e : SpaceEvent} {s s' : Spaces} {p q np : Slot} {c : ℕ} {t : Ptable}

theorem caller_runs (h : s.table.Inv) (hp : s.table.caller c = some p) :
    (s.table.proc p).state = .running := h.runs (Ptable.caller_eq_some.1 hp).1

theorem wholeAt_iff {d : Pgdir} (hold : s.table.holding q = .space) (hd : s.pgdir q = some d) :
    s.WholeAt q ↔ Whole d (s.sz q) := by
  refine ⟨fun h => h hold d hd, fun h _ d' hd' => ?_⟩
  obtain rfl := Option.some.inj (hd.symm.trans hd')
  exact h

theorem wholeAt_of_ne (hold : s.table.holding q ≠ .space) : s.WholeAt q := fun h => absurd h hold

/-- One slot trades with the free list. -/
theorem Outcome.single (hi : s'.table.Inv)
    (hhold : ∀ x ≠ q, s'.table.holding x = s.table.holding x) (hsz : ∀ x ≠ q, s'.sz x = s.sz x)
    (hpgdir : ∀ x ≠ q, s'.pgdir x = s.pgdir x) (hkstack : ∀ x ≠ q, s'.kstack x = s.kstack x)
    (htrade : Exchange s.kmem s'.kmem (s.owned q) (s'.owned q)) (hkept : s'.Kept q)
    (hcause : s.table.holding q = .space → s'.table.holding q = .space → s.writer e = some q)
    (hwhole : (∀ x, s.WholeAt x) → (s'.WholeAt q ↔ s.Keeps e)) : Outcome e s (.ok (some s')) := by
  have hne : ∀ x, some q ≠ some x → x ≠ q := fun x hx hxq => hx (by rw [hxq])
  refine ⟨some q, ⟨hi, fun x hx => hhold x (hne x hx), fun x hx => hsz x (hne x hx),
    fun x hx => hpgdir x (hne x hx), fun x hx => hkstack x (hne x hx), fun hx => (by cases hx),
    fun x hx => ?_, fun x hx => ?_, fun x hx => ?_⟩, fun hall => ?_⟩
  · obtain rfl := Option.some.inj hx
    exact htrade
  · obtain rfl := Option.some.inj hx
    exact hkept
  · obtain rfl := Option.some.inj hx
    exact hcause
  · rw [← hwhole hall]
    refine ⟨fun h => h q rfl, fun h x hx => ?_⟩
    obtain rfl := Option.some.inj hx
    exact h

/-- A call that changes the address space of its process. -/
theorem onSpace_outcome (h : s.Isolated) {f : Pgdir → ℕ → Except Panic (Option (Kmem × Pgdir × ℕ))}
    (hw : s.writer e = s.table.caller c)
    (hf : ∀ p d, s.table.caller c = some p → Space d (s.sz p) → Valid (s.kmem.free + d.frames) →
      f d (s.sz p) = .ok none ∨ ∃ m d' sz', f d (s.sz p) = .ok (some (m, d', sz')) ∧
        Exchange s.kmem m d.frames d'.frames ∧ Space d' sz' ∧
        (Whole d (s.sz p) → (Whole d' sz' ↔ s.Keeps e))) : Outcome e s (s.onSpace c f) := by
  unfold onSpace
  rcases hc : s.table.caller c with _ | p
  · trivial
  obtain ⟨hold, d, k, hd, hk, hspace, hvalid⟩ := h.running (caller_runs h.table hc)
  dsimp only
  rw [hd]
  dsimp only
  rcases hf p d hc hspace hvalid with hnone | ⟨m, d', sz', hsome, hex, hspace', hwhole⟩
  · rw [hnone]
    trivial
  rw [hsome]
  refine .single (q := p) h.table (fun _ _ => rfl) (fun x hx => Function.update_of_ne hx _ _)
    (fun x hx => Function.update_of_ne hx _ _) (fun _ _ => rfl) ?_ ?_ (fun _ _ => by rw [hw, hc])
    fun hall => ?_
  · have hnew := owned_space (s := { s with
      kmem := m, pgdir := Function.update s.pgdir p (some d'), sz := Function.update s.sz p sz' })
      hold hk (Function.update_self _ _ _)
    rw [owned_space hold hk hd, hnew, add_comm _ d.frames, add_comm _ d'.frames]
    exact hex.frame {k}
  · refine ⟨fun _ => ⟨k, hk⟩, fun _ => ⟨d', Function.update_self _ _ _, ?_⟩⟩
    simp only [Function.update_self]
    exact hspace'
  · refine Iff.trans (wholeAt_iff hold (Function.update_self _ _ _)) ?_
    simp only [Function.update_self]
    exact hwhole (hall p hold d hd)

theorem sbrk_outcome (h : s.Isolated) (c : ℕ) (n : BitVec 32) :
    Outcome (.sbrk c n) s (s.sbrk c n) := by
  refine onSpace_outcome h rfl fun p d hc hspace hvalid => Or.inr ?_
  obtain ⟨m, d', sz', r, hg, hex, hspace', hwhole⟩ := growproc_exchange hspace hvalid n
  refine ⟨m, d', sz', by rw [hg], hex, hspace', fun hw => ?_⟩
  rw [hwhole hw]
  refine ⟨fun hor q hq => ?_, fun hk => hk p hc⟩
  obtain rfl := Option.some.inj (hc.symm.trans hq)
  exact hor

theorem exec_outcome (h : s.Isolated) (c : ℕ) (x : ExecFile) (path : List ℕ)
    (argv : List (List ℕ)) : Outcome (.exec c x path argv) s (s.exec c x path argv) := by
  refine onSpace_outcome h rfl fun p d hc hspace hvalid => ?_
  by_cases hargv : ∀ a ∈ argv, a.length < KERNBASE
  · obtain ⟨e, r, he, hex, hspace', hwhole⟩ := ExecState.exec_exchange
      (s := ⟨s.kmem, 0, 0, 1, d, s.sz p, [], 0, 0⟩) hspace hvalid x path hargv
    exact Or.inr ⟨e.kmem, e.pgdir, e.sz, by rw [if_pos hargv, he], hex, hspace',
      fun hw => iff_of_true (hwhole hw) trivial⟩
  · exact Or.inl (if_neg hargv)

theorem store_outcome (h : s.Isolated) (c va b : ℕ) :
    Outcome (.store c va b) s (s.store c va b) := by
  refine onSpace_outcome h rfl fun p d hc hspace hvalid => ?_
  rcases hl : d.lookup (va / PGSIZE) with _ | e
  · exact Or.inl rfl
  dsimp only
  split_ifs with hflags
  · -- the page is for the user, so it is below the window
    have hv : va / PGSIZE < WINPAGE := by
      by_contra hge
      have hu := hspace.kernel _ e (Nat.le_of_not_lt hge) hl
      rw [hflags.2] at hu
      cases hu
    have hf : e.frame ∈ d.frames := mem_frames.2 (Or.inr (Or.inr (mem_user hv hl)))
    exact Or.inr ⟨_, d, s.sz p, rfl, write_exchange hf _ _ _, hspace, fun hw => iff_of_true hw trivial⟩
  · exact Or.inl rfl

theorem reap_exchange (h : s.Isolated) (hold : s.table.holding q = .space) :
    ∃ m, s.reap q = .ok { s with kmem := m, kstack := Function.update s.kstack q none } ∧
      Exchange s.kmem m (s.owned q) 0 := by
  obtain ⟨d, hd, -⟩ := (h.kept q).space hold
  obtain ⟨k, hk⟩ := (h.kept q).stack (by rw [hold]; decide)
  have hown := owned_space hold hk hd
  have hok : ∀ f ∈ s.owned q, kfreeOk f := fun f hf =>
    (h.valid_owned q).ok f (Multiset.mem_add.2 (Or.inr hf))
  rw [hown] at hok ⊢
  obtain ⟨m₁, hkf⟩ := kfree_total (hok k (Multiset.mem_add.2 (Or.inl (Multiset.mem_singleton_self k))))
    s.kmem
  obtain ⟨m₂, hfv⟩ := freevm_total (fun f hf => hok f (Multiset.mem_add.2 (Or.inr hf))) m₁
  have hfirst : Exchange s.kmem m₁ ({k} + d.frames) d.frames := by
    have hex := (kfree_exchange hkf).frame d.frames
    rwa [zero_add] at hex
  exact ⟨m₂, by rw [reap, hk, hd]; dsimp only; rw [hkf]; dsimp only; rw [hfv],
    hfirst.trans (freevm_exchange hfv)⟩

theorem tableStep_outcome (h : s.Isolated) {e : Event} (hplain : e.plain = true) :
    Outcome (.table e) s (s.tableStep e) := by
  unfold tableStep
  rcases hstep : OsPlayground.step e s.table with _ | t
  · trivial
  have hold := plain_holding h.table hplain hstep
  have hinv := inv_step h.table hstep
  dsimp only
  rcases hr : reaped e s.table with _ | q
  · refine ⟨none, ⟨hinv, fun x _ => ?_, fun _ _ => rfl, fun _ _ => rfl, fun _ _ => rfl, fun _ => rfl,
      fun _ hq => (by cases hq), fun _ hq => (by cases hq), fun _ hq => (by cases hq)⟩,
      fun _ => iff_of_true (fun _ hq => (by cases hq)) trivial⟩
    have hx := hold x
    rwa [hr, if_neg (by simp)] at hx
  · obtain ⟨m, hreap, hex⟩ := reap_exchange h (reaped_holding hr)
    dsimp only
    rw [hreap]
    have hgone : t.holding q = .none := by rw [hold q, if_pos hr]
    refine .single (q := q) hinv (fun x hx => ?_) (fun _ _ => rfl) (fun _ _ => rfl)
      (fun x hx => Function.update_of_ne hx _ _) ?_ ?_ (fun _ hsp => ?_) fun _ =>
        iff_of_true (wholeAt_of_ne ?_) trivial
    · rw [hold x, hr, if_neg fun hxq => hx (Option.some.inj hxq).symm]
    · rw [owned_none (s := { s with
        table := t, kmem := m, kstack := Function.update s.kstack q none }) hgone]
      exact hex
    · exact ⟨fun hne => absurd hgone hne, fun hsp => by rw [hgone] at hsp; cases hsp⟩
    · rw [hgone] at hsp
      cases hsp
    · rw [hgone]
      decide

theorem child_eq_some {np : Slot} (h : s.table.child c = some np) :
    ∃ p, s.table.Runs c p ∧ (s.table.proc p).call.child = some np := by
  obtain ⟨p, hp, hcall⟩ := Option.bind_eq_some_iff.1 h
  exact ⟨p, Ptable.myproc_eq_some.1 hp, hcall⟩

/-- A stage of a `fork` moves only the slot that it fills. -/
theorem stage_holding {k : Call} {f : Proc → Proc}
    (hcall : (s.table.proc p).call.child = some np)
    (hf : (f (s.table.proc np)).call = (s.table.proc np).call)
    (hk : ∀ y, k.child = some y → y = np) (q : Slot) (hq : q ≠ np) :
    ((s.table.setProc np f).setProc p fun r => { r with call := k }).holding q =
      s.table.holding q := by
  refine Ptable.holding_stage (fun x hx => ?_) (fun x => ?_) (fun y hy => ?_) hk hq
  · rw [Ptable.setProc_of_ne _ _ hx]
  · by_cases hxn : x = np
    · rw [hxn, Ptable.setProc_self, hf]
    · rw [Ptable.setProc_of_ne _ _ hxn]
  · rw [hcall] at hy
    exact (Option.some.inj hy).symm

/-- The process that runs is not the one that it makes. -/
theorem child_ne (hi : s.table.Inv) (hp : s.table.Runs c p)
    (hchild : (s.table.proc p).call.child = some np) : np ≠ p := by
  rintro rfl
  have he := hi.embryo _ _ hchild
  rw [hi.runs hp] at he
  cases he

/-- A slot that is given up holds nothing. -/
theorem freeEmbryo_holding (hne : np ≠ p) :
    ((freeEmbryo np s.table).setProc p fun r => { r with call := .none }).holding np = .none :=
  Ptable.holding_unused (by rw [Ptable.setProc_of_ne _ _ hne, freeEmbryo, Ptable.setProc_self])

/-- Both ends of `allocprocInit`: with a stack or without. -/
theorem kstack_outcome {m : Kmem} {o : Option Frame} (hinv : t.Inv)
    (hother : ∀ x ≠ np, t.holding x = s.table.holding x) (hbefore : s.table.holding np = .none)
    (hafter : t.holding np ≠ .space) (hstack : t.holding np ≠ .none → ∃ k, o = some k)
    (hex : Exchange s.kmem m 0
      (Spaces.owned ⟨t, m, s.sz, s.pgdir, Function.update s.kstack np o⟩ np)) :
    Outcome (.allocprocInit c) s
      (.ok (some ⟨t, m, s.sz, s.pgdir, Function.update s.kstack np o⟩)) := by
  refine .single (q := np) hinv hother (fun _ _ => rfl) (fun _ _ => rfl)
    (fun x hx => Function.update_of_ne hx _ _) ?_ ⟨fun hne => ?_, fun hsp => absurd hsp hafter⟩
    (fun hsp => ?_) fun _ => iff_of_true (wholeAt_of_ne hafter) trivial
  · rw [owned_none hbefore]
    exact hex
  · obtain ⟨k, rfl⟩ := hstack hne
    exact ⟨k, Function.update_self _ _ _⟩
  · rw [hbefore] at hsp
    cases hsp

theorem allocprocInit_outcome (h : s.Isolated) (c : ℕ) :
    Outcome (.allocprocInit c) s (s.allocprocInit c) := by
  unfold allocprocInit
  rcases hc : s.table.child c with _ | np
  · trivial
  obtain ⟨p, hp, hchild⟩ := child_eq_some hc
  dsimp only
  rcases hk : kalloc s.kmem with ⟨m, _ | k⟩
  · dsimp only
    rcases hstep : OsPlayground.step (.allocprocInit c false) s.table with _ | t
    · trivial
    have hinv := inv_step h.table hstep
    obtain ⟨rfl, -⟩ := kalloc_none hk
    cases step_moves hstep with
    | assign he => cases he
    | @allocFree c p' np' hp' hcall' =>
      obtain rfl : p = p' := Option.some.inj (hp.cpu.symm.trans hp'.cpu)
      obtain rfl : np' = np := by
        rw [hcall'] at hchild
        exact Option.some.inj hchild
      have hbefore : s.table.holding np' = .none := by rw [h.table.holding_child hchild, hcall']
      have hafter := freeEmbryo_holding (s := s) (child_ne h.table hp hchild)
      refine kstack_outcome (o := none) hinv (stage_holding hchild rfl fun y hy => (by cases hy))
        hbefore (by rw [hafter]; decide) (fun hne => absurd hafter hne) ?_
      rw [owned_none hafter]
      exact .refl _ _
  · dsimp only
    rcases hstep : OsPlayground.step (.allocprocInit c true) s.table with _ | t
    · trivial
    have hinv := inv_step h.table hstep
    cases step_moves hstep with
    | assign he => cases he
    | @allocInit c p' np' hp' hcall' =>
      obtain rfl : p = p' := Option.some.inj (hp.cpu.symm.trans hp'.cpu)
      obtain rfl : np' = np := by
        rw [hcall'] at hchild
        exact Option.some.inj hchild
      have hbefore : s.table.holding np' = .none := by rw [h.table.holding_child hchild, hcall']
      have hcall : (((OsPlayground.allocprocInit np' s.table).setProc p fun r =>
          { r with call := .fork np' }).proc p).call = .fork np' := by rw [Ptable.setProc_self]
      have hafter : ((OsPlayground.allocprocInit np' s.table).setProc p fun r =>
          { r with call := .fork np' }).holding np' = .stack := by
        rw [hinv.holding_child (by rw [hcall]; rfl), hcall]
      refine kstack_outcome (o := some k) hinv (stage_holding hchild rfl fun y hy =>
        (Option.some.inj hy).symm) hbefore (by rw [hafter]; decide) (fun _ => ⟨k, rfl⟩) ?_
      rw [owned_stack hafter (Function.update_self _ _ _)]
      exact kalloc_exchange hk

/-- There is no copy: the stack is given back. -/
theorem forkFree_outcome {m m' : Kmem} {k : Frame} (h : s.Isolated) (hp : s.table.Runs c p)
    (hcall : (s.table.proc p).call = .fork np) (hk : s.kstack np = some k)
    (hex : Exchange s.kmem m 0 0) (hkf : kfree k m = .ok m')
    (hstep : OsPlayground.step (.forkCopy c false) s.table = some t) :
    Outcome (.forkCopy c) s (.ok (some { s with
      table := t, kmem := m', pgdir := Function.update s.pgdir np none
      kstack := Function.update s.kstack np none })) := by
  have hinv := inv_step h.table hstep
  have hchild : (s.table.proc p).call.child = some np := congrArg Call.child hcall
  have hbefore : s.table.holding np = .stack := by rw [h.table.holding_child hchild, hcall]
  cases step_moves hstep with
  | assign he => cases he
  | @forkFree c p' np' hp' hcall' =>
    obtain rfl : p = p' := Option.some.inj (hp.cpu.symm.trans hp'.cpu)
    obtain rfl : np = np' := Call.fork.inj (hcall.symm.trans hcall')
    have hafter := freeEmbryo_holding (s := s) (child_ne h.table hp hchild)
    refine .single (q := np) hinv (stage_holding hchild rfl fun y hy => (by cases hy))
      (fun _ _ => rfl) (fun x hx => Function.update_of_ne hx _ _)
      (fun x hx => Function.update_of_ne hx _ _) ?_
      ⟨fun hne => absurd hafter hne, fun hsp => by rw [hafter] at hsp; cases hsp⟩ (fun hsp => ?_)
      fun _ => iff_of_true (wholeAt_of_ne (by rw [hafter]; decide)) trivial
    · rw [owned_stack hbefore hk, owned_none hafter]
      have hstack := hex.frame {k}
      rw [zero_add] at hstack
      exact hstack.trans (kfree_exchange hkf)
    · rw [hbefore] at hsp
      cases hsp

/-- The child has the copy. -/
theorem forkCopied_outcome {m : Kmem} {d : Pgdir} {k : Frame} (h : s.Isolated)
    (hp : s.table.Runs c p) (hcall : (s.table.proc p).call = .fork np) (hk : s.kstack np = some k)
    (hex : Exchange s.kmem m 0 d.frames) (hspace : Space d (s.sz p)) (hwhole : Whole d (s.sz p))
    (hstep : OsPlayground.step (.forkCopy c true) s.table = some t) :
    Outcome (.forkCopy c) s (.ok (some { s with
      table := t, kmem := m, sz := Function.update s.sz np (s.sz p)
      pgdir := Function.update s.pgdir np (some d) })) := by
  have hinv := inv_step h.table hstep
  have hchild : (s.table.proc p).call.child = some np := congrArg Call.child hcall
  have hbefore : s.table.holding np = .stack := by rw [h.table.holding_child hchild, hcall]
  have hmoved : t.holding np = .space ∧ ∀ q ≠ np, t.holding q = s.table.holding q := by
    cases step_moves hstep with
    | assign he => cases he
    | @forkCopy c p' np' hp' hcall' =>
      obtain rfl : p = p' := Option.some.inj (hp.cpu.symm.trans hp'.cpu)
      obtain rfl : np = np' := Call.fork.inj (hcall.symm.trans hcall')
      have hcalled : (((OsPlayground.forkCopy p np s.table).setProc p fun r =>
          { r with call := .forked np }).proc p).call = .forked np := by rw [Ptable.setProc_self]
      exact ⟨by rw [hinv.holding_child (by rw [hcalled]; rfl), hcalled],
        stage_holding hchild rfl fun y hy => (Option.some.inj hy).symm⟩
  obtain ⟨hafter, hother⟩ := hmoved
  refine .single (q := np) hinv hother (fun x hx => Function.update_of_ne hx _ _)
    (fun x hx => Function.update_of_ne hx _ _) (fun _ _ => rfl) ?_
    ⟨fun _ => ⟨k, hk⟩, fun _ => ⟨d, Function.update_self _ _ _, ?_⟩⟩ (fun hsp => ?_)
    fun _ => iff_of_true (Iff.mpr (wholeAt_iff hafter (Function.update_self _ _ _)) ?_) trivial
  · have hnew := owned_space (s := ⟨t, m, Function.update s.sz np (s.sz p),
      Function.update s.pgdir np (some d), s.kstack⟩) hafter hk (Function.update_self _ _ _)
    rw [owned_stack hbefore hk, hnew, add_comm _ d.frames]
    have hstack := hex.frame {k}
    rwa [zero_add] at hstack
  · simp only [Function.update_self]
    exact hspace
  · rw [hbefore] at hsp
    cases hsp
  · simp only [Function.update_self]
    exact hwhole

theorem forkCopy_outcome (h : s.Isolated) (c : ℕ) : Outcome (.forkCopy c) s (s.forkCopy c) := by
  unfold forkCopy
  rcases hc : s.table.myproc c with _ | p
  · trivial
  rcases hchild : s.table.child c with _ | np
  · trivial
  rcases hstep : OsPlayground.step (.forkCopy c true) s.table with _ | t
  · trivial
  have hp := Ptable.myproc_eq_some.1 hc
  obtain ⟨hold, d, k₀, hd, -, hspace, -⟩ := h.running (h.table.runs hp)
  rw [Ptable.child, hc, Option.bind_some] at hchild
  have hcall : (s.table.proc p).call = .fork np := by
    cases step_moves hstep with
    | assign he => cases he
    | @forkCopy c p' np' hp' hcall' =>
      obtain rfl : p = p' := Option.some.inj (hp.cpu.symm.trans hp'.cpu)
      rw [hcall'] at hchild
      obtain rfl := Option.some.inj hchild
      exact hcall'
  have hbefore : s.table.holding np = .stack := by rw [h.table.holding_child hchild, hcall]
  obtain ⟨k, hk⟩ := (h.kept np).stack (by rw [hbefore]; decide)
  dsimp only
  rw [hd]
  dsimp only
  have hcopied : (¬ Whole d (s.sz p) ∧ _) ∨ _ := copyuvm_exchange hspace.size h.valid_free
  rcases hcopied with
    ⟨hmiss, e, hcopy⟩ | ⟨m, hcopy, hex⟩ | ⟨m, d', hcopy, hex, hspace', hwhole⟩
  · rw [hcopy]
    exact Or.inr fun hall => hmiss (hall p hold d hd)
  · have hok : kfreeOk k := (h.valid_owned np).ok k (by
      rw [owned_stack hbefore hk]
      exact Multiset.mem_add.2 (Or.inr (Multiset.mem_singleton_self k)))
    obtain ⟨m', hkf⟩ := kfree_total hok m
    rw [hcopy]
    dsimp only
    rw [hk]
    dsimp only
    rw [hkf]
    dsimp only
    rcases hstep' : OsPlayground.step (.forkCopy c false) s.table with _ | t'
    · trivial
    · exact forkFree_outcome h hp hcall hk hex hkf hstep'
  · rw [hcopy]
    exact forkCopied_outcome h hp hcall hk hex hspace' hwhole hstep

theorem userinit_outcome (h : s.Isolated) (init : ℕ → ℕ) (k : ℕ) :
    Outcome (.userinit init k) s (s.userinit init k) := by
  unfold userinit
  rcases halloc : allocproc s.table with _ | ⟨p, t₁⟩
  · trivial
  rcases hstep : OsPlayground.step .userinit s.table with _ | t
  · trivial
  dsimp only
  rcases hk : kalloc s.kmem with ⟨m₁, _ | ks⟩
  · exact Or.inl ⟨init, k, rfl⟩
  dsimp only
  have hex₁ := kalloc_exchange hk
  have hvalid₁ : Valid m₁.free := h.valid_free.mono (kalloc_taken hk).le
  rcases setupkvm_spec hvalid₁.ok with ⟨m₂, d, hset, hnew⟩ | ⟨m₂, hset, -, -, -⟩
  swap
  · rw [hset]
    exact Or.inl ⟨init, k, rfl⟩
  rw [hset]
  dsimp only
  rcases hi : inituvm d init k m₂ with e | ⟨m₃, d₃⟩
  · exact Or.inl ⟨init, k, rfl⟩
  obtain ⟨hex₃, hspace, hwhole⟩ := inituvm_exchange hnew.space (hnew.pde_none (by decide)) hi
  have hex₂ : Exchange m₁ m₂ 0 d.frames := .of_taken hnew.taken (by rw [hnew.free, add_zero])
  have hex : Exchange s.kmem m₃ 0 ({ks} + d₃.frames) := by
    have hstack := (hex₂.trans hex₃).frame {ks}
    rw [zero_add, add_comm d₃.frames] at hstack
    exact hex₁.trans hstack
  have hcard : m₂.free.card ≠ 1 ↔ s.kmem.free.card ≠ 67 := by
    rw [kalloc_some hk, Multiset.card_add, Multiset.card_singleton, hnew.card]
    omega
  obtain ⟨hun, ht₁⟩ := allocproc_spec halloc
  have hinv := inv_step h.table hstep
  have hbefore : s.table.holding p = .none := Ptable.holding_unused hun
  cases step_moves hstep with
  | assign he => cases he
  | @userinit p' t₁' hlock hinit halloc' =>
    obtain ⟨rfl, rfl⟩ := Prod.mk.inj (Option.some.inj (halloc.symm.trans halloc'))
    generalize ht : qpush p ({ OsPlayground.allocprocInit p t₁ with initproc := some p }.setProc p
      fun r => { r with state := .runnable }) = t at hinv
    have hother : ∀ x ≠ p, (t.proc x).state = (s.table.proc x).state ∧
        (t.proc x).call = (s.table.proc x).call := by
      intro x hx
      rw [← ht, qpush_state, qpush_call, Ptable.setProc_of_ne _ _ hx]
      simp [OsPlayground.allocprocInit, Ptable.setProc_of_ne _ _ hx, ht₁]
    have hself : (t.proc p).state = .runnable ∧ (t.proc p).call = (s.table.proc p).call := by
      rw [← ht, qpush_state, qpush_call, Ptable.setProc_self]
      simp [OsPlayground.allocprocInit, ht₁]
    have hidle : (s.table.proc p).call = .none := h.table.idle p (Or.inl hun)
    have hafter : t.holding p = .space :=
      Ptable.holding_live (by rw [hself.1]; decide) (by rw [hself.1]; decide)
    refine .single (q := p) hinv (fun x hx => ?_) (fun x hx => Function.update_of_ne hx _ _)
      (fun x hx => Function.update_of_ne hx _ _) (fun x hx => Function.update_of_ne hx _ _) ?_
      ⟨fun _ => ⟨ks, Function.update_self _ _ _⟩, fun _ => ⟨d₃, Function.update_self _ _ _, ?_⟩⟩
      (fun hsp => ?_) fun _ => ?_
    · refine Ptable.holding_of_ne (p := p) (fun y hy => (hother y hy).1) (fun y hy => (hother y hy).2)
        (fun y hy => ?_) (fun y hy => ?_) hx
      · rw [hidle] at hy
        cases hy
      · rw [hself.2, hidle] at hy
        cases hy
    · have hown := owned_space (s := ⟨t, m₃, Function.update s.sz p PGSIZE,
        Function.update s.pgdir p (some d₃), Function.update s.kstack p (some ks)⟩) hafter
        (Function.update_self _ _ _) (Function.update_self _ _ _)
      rw [owned_none hbefore, hown]
      exact hex
    · simp only [Function.update_self]
      exact hspace
    · rw [hbefore] at hsp
      cases hsp
    · refine Iff.trans (wholeAt_iff hafter (Function.update_self _ _ _)) ?_
      simp only [Function.update_self]
      exact hwhole.trans hcard

/-- **What a step may come to.** -/
theorem step_outcome (h : s.Isolated) (e : SpaceEvent) : Outcome e s (step e s) := by
  cases e with
  | table e =>
    rw [step]
    split_ifs with hplain
    · exact tableStep_outcome h hplain
    · trivial
  | userinit init k => exact userinit_outcome h init k
  | allocprocInit c => exact allocprocInit_outcome h c
  | forkCopy c => exact forkCopy_outcome h c
  | sbrk c n => exact sbrk_outcome h c n
  | exec c x path argv => exact exec_outcome h c x path argv
  | store c va b => exact store_outcome h c va b

end Steps

/-! ## Every run -/

section Runs

variable {e : SpaceEvent} {s s' : Spaces} {m : Kmem} {q : Slot} {es fs : List SpaceEvent}

theorem next_eq_some : next e s = some s' ↔ step e s = .ok (some s') := by
  unfold next
  rcases step e s with e | o
  · simp
  · simp

/-- **Inversion.** -/
theorem next_acts (h : s.Isolated) (he : next e s = some s') : ∃ o, Acts e o s s' ∧
    ((∀ q, s.WholeAt q) → ((∀ q, s'.WholeAt q) ↔ s.Keeps e)) := by
  have hout := step_outcome h e
  rw [next_eq_some.1 he] at hout
  obtain ⟨o, ha, hw⟩ := hout
  exact ⟨o, ha, fun hall => (ha.whole_iff hall).trans (hw hall)⟩

theorem next_isolated (h : s.Isolated) (he : next e s = some s') : s'.Isolated := by
  obtain ⟨o, ha, -⟩ := next_acts h he
  exact ha.isolated h

theorem start_holding (m : Kmem) (q : Slot) : (start m).table.holding q = .none :=
  Ptable.holding_unused rfl

theorem start_isolated (hm : Valid m.free) : (start m).Isolated where
  table := Ptable.boot_inv
  kept q := by
    refine ⟨fun h => absurd (start_holding m q) h, fun h => ?_⟩
    rw [start_holding] at h
    cases h
  valid := by
    rw [Finset.sum_eq_zero fun q _ => owned_none (start_holding m q), add_zero]
    exact hm

theorem start_whole (m : Kmem) (q : Slot) : (start m).WholeAt q := fun h => by
  rw [start_holding] at h
  cases h

/-- **Isolation.** In every run, no frame has two owners, none that is owned is free, and every user
page is below the size of its process. -/
theorem isolated_run (hm : Valid m.free) (es : List SpaceEvent) :
    Throughout next Isolated es (start m) :=
  throughout_of_inv (fun _ _ _ h he => next_isolated h he) (start_isolated hm)

/-- The memory of `q` is what it was. -/
structure SameSpace (q : Slot) (s s' : Spaces) : Prop where
  pgdir : s'.pgdir q = s.pgdir q
  sz : s'.sz q = s.sz q
  kstack : s'.kstack q = s.kstack q
  mem : ∀ d, s.pgdir q = some d → ∀ f ∈ d.frames, s'.kmem.mem f = s.kmem.mem f

theorem next_sameSpace (h : s.Isolated) (hold : s.table.holding q = .space)
    (hold' : s'.table.holding q = .space) (hq : s.writer e ≠ some q) (he : next e s = some s') :
    SameSpace q s s' := by
  obtain ⟨o, ha, -⟩ := next_acts h he
  have ho : o ≠ some q := fun ho => hq (ha.cause q ho hold hold')
  refine ⟨ha.pgdir q ho, ha.sz q ho, ha.kstack q ho, fun d hd f hf => ha.mem_eq h ho ?_⟩
  obtain ⟨k, hk⟩ := (h.kept q).stack (by rw [hold]; decide)
  rw [owned_space hold hk hd]
  exact Multiset.mem_add.2 (Or.inr hf)

/-- **Privacy.** Whatever the other processes do, a process that lives on and makes no call finds its
memory as it left it. -/
theorem private_run (h : s.Isolated) (hold : s.table.holding q = .space)
    (hq : Along next (fun s e s' => s.writer e ≠ some q ∧ s'.table.holding q = .space) es s)
    (hr : run next es s = some s') : SameSpace q s s' := by
  induction es generalizing s with
  | nil =>
    obtain rfl : s = s' := by simpa [run] using hr
    exact ⟨rfl, rfl, rfl, fun _ _ _ _ => rfl⟩
  | cons e es ih =>
    obtain ⟨s₁, he, hr⟩ := run_cons.1 hr
    obtain ⟨⟨hw, hold₁⟩, hrest⟩ := hq s₁ he
    have hone := next_sameSpace h hold hold₁ hw he
    have hmore := ih (next_isolated h he) hold₁ hrest hr
    refine ⟨hmore.pgdir.trans hone.pgdir, hmore.sz.trans hone.sz, hmore.kstack.trans hone.kstack,
      fun d hd f hf => ?_⟩
    exact (hmore.mem d (hone.pgdir.trans hd) f hf).trans (hone.mem d hd f hf)

/-- **No holes.** In every run, every process has all its pages throughout if and only if no process
gives back all its memory by one `sbrk` and `userinit` does not find exactly 67 free pages. -/
theorem whole_run (hm : Valid m.free) (es : List SpaceEvent) :
    Throughout next (fun s => ∀ q, s.WholeAt q) es (start m) ↔
      Along next (fun s e _ => s.Keeps e) es (start m) := by
  refine throughout_iff_along (I := Isolated) (fun _ _ _ h he => next_isolated h he)
    (fun s e s' h hw hk he => ?_) (fun s e s' h hw he hw' => ?_) (start_isolated hm) (start_whole m)
  · obtain ⟨-, -, hiff⟩ := next_acts h he
    exact (hiff hw).2 hk
  · obtain ⟨-, -, hiff⟩ := next_acts h he
    exact (hiff hw).1 hw'

end Runs

/-! ## With frames enough -/

section Enough

variable {s : Spaces} {t t₁ : Ptable} {e : Event} {p : Slot} {c k : ℕ} {init : ℕ → ℕ}

theorem next_table (hplain : e.plain = true) (hr : reaped e s.table = none)
    (ht : OsPlayground.step e s.table = some t) :
    next (.table e) s = some { s with table := t } := by
  rw [next_eq_some, step, if_pos hplain, tableStep, ht]
  dsimp only
  rw [hr]

theorem next_userinit (hok : ∀ f ∈ s.kmem.free, kfreeOk f) (hk : k < PGSIZE)
    (ha : allocproc s.table = some (p, t₁)) (ht : OsPlayground.step .userinit s.table = some t)
    (hcard : 68 ≤ s.kmem.free.card) :
    ∃ s', next (.userinit init k) s = some s' ∧ s'.table = t ∧ s'.sz p = PGSIZE ∧
      s.kmem.free.card ≤ s'.kmem.free.card + 68 := by
  obtain ⟨m₁, ks, hks, hcard₁⟩ := kalloc_enough (m := s.kmem) (by omega)
  rcases setupkvm_spec (m := m₁) (fun f hf => hok f (by
    rw [kalloc_some hks]
    exact Multiset.mem_add.2 (.inr hf))) with ⟨m₂, d, hset, hnew⟩ | ⟨m₂, -, -, hlt, -⟩
  swap
  · omega
  have hcard₂ := hnew.card
  obtain ⟨m₃, d₃, hi, hcard₃⟩ : ∃ m₃ d₃, inituvm d init k m₂ = .ok (m₃, d₃) ∧ _ :=
    inituvm_enough (hnew.pde_none (by decide)) hk (by omega)
  refine ⟨⟨t, m₃, Function.update s.sz p PGSIZE, Function.update s.pgdir p (some d₃),
    Function.update s.kstack p (some ks)⟩, ?_, rfl, Function.update_self _ _ _, ?_⟩
  swap
  · dsimp only
    omega
  rw [next_eq_some, step, userinit, ha, ht]
  dsimp only
  rw [hks]
  dsimp only
  rw [hset]
  dsimp only
  rw [hi]

theorem next_allocprocInit (ht : OsPlayground.step (.allocprocInit c true) s.table = some t)
    (hcard : 1 ≤ s.kmem.free.card) :
    ∃ s', next (.allocprocInit c) s = some s' ∧ s'.table = t ∧ s'.sz = s.sz ∧
      s.kmem.free.card = s'.kmem.free.card + 1 := by
  obtain ⟨np, hc⟩ : ∃ np, s.table.child c = some np := by
    cases step_moves ht with
    | assign he => cases he
    | @allocInit c p np hp hcall =>
      exact ⟨np, by rw [Ptable.child, Ptable.myproc_eq_some.2 hp, Option.bind_some, hcall]; rfl⟩
  obtain ⟨m, f, hk, hcard'⟩ := kalloc_enough hcard
  refine ⟨⟨t, m, s.sz, s.pgdir, Function.update s.kstack np (some f)⟩, ?_, rfl, rfl, hcard'⟩
  rw [next_eq_some, step, Spaces.allocprocInit, hc]
  dsimp only
  rw [hk]
  dsimp only
  rw [ht]
  rfl

theorem next_forkCopy (h : s.Isolated) (hw : ∀ q, s.WholeAt q) (hp : s.table.Runs c p)
    (ht : OsPlayground.step (.forkCopy c true) s.table = some t)
    (hcard : 65 + 2 * (s.sz p / PGSIZE + 1) ≤ s.kmem.free.card) :
    ∃ s', next (.forkCopy c) s = some s' ∧ s'.table = t ∧ s'.sz p = s.sz p := by
  obtain ⟨np, hcall⟩ : ∃ np, (s.table.proc p).call.child = some np := by
    cases step_moves ht with
    | assign he => cases he
    | @forkCopy c p' np hp' hcall =>
      obtain rfl : p = p' := Option.some.inj (hp.cpu.symm.trans hp'.cpu)
      exact ⟨np, by rw [hcall]; rfl⟩
  have hc : s.table.child c = some np := by
    rw [Ptable.child, Ptable.myproc_eq_some.2 hp, Option.bind_some, hcall]
  have hne : p ≠ np := by
    rintro rfl
    have he := h.table.embryo _ _ hcall
    rw [h.table.runs hp] at he
    cases he
  obtain ⟨hold, d, k, hd, -, hspace, -⟩ := h.running (h.table.runs hp)
  obtain ⟨m, d', hcopy⟩ := copyuvm_enough h.valid_free.ok hspace.size (hw p hold d hd) hcard
  refine ⟨⟨t, m, Function.update s.sz np (s.sz p), Function.update s.pgdir np (some d'), s.kstack⟩,
    ?_, rfl, Function.update_of_ne hne _ _⟩
  rw [next_eq_some, step, Spaces.forkCopy, Ptable.myproc_eq_some.2 hp, hc, ht]
  dsimp only
  rw [hd]
  dsimp only
  rw [hcopy]

theorem next_sbrk (h : s.Isolated ∧ ∀ q, s.WholeAt q) (hc : s.table.caller c = some p)
    (n : BitVec 32) : ∃ s', next (.sbrk c n) s = some s' ∧ s'.table = s.table := by
  have hout := step_outcome h.1 (.sbrk c n)
  obtain ⟨d, hd⟩ : ∃ d, s.pgdir p = some d := by
    obtain ⟨-, d, k, hd, -⟩ := h.1.running (caller_runs h.1.table hc)
    exact ⟨d, hd⟩
  simp only [next_eq_some, step, sbrk, onSpace, hc, hd] at hout ⊢
  generalize growproc d (s.sz p) n s.kmem = g at hout ⊢
  rcases g with e | ⟨m, d', sz, r⟩
  · rcases hout with ⟨init, k, he⟩ | hmiss
    · cases he
    · exact absurd h.2 hmiss
  · exact ⟨_, rfl, rfl⟩

end Enough

/-! ## The first process forks -/

theorem next_sound {s s' : Spaces} {e : SpaceEvent} (h : s.Isolated ∧ ∀ q, s.WholeAt q)
    (he : next e s = some s') (hk : s.Keeps e) : s'.Isolated ∧ ∀ q, s'.WholeAt q := by
  obtain ⟨o, ha, hw⟩ := next_acts h.1 he
  exact ⟨ha.isolated h.1, (hw h.2).2 hk⟩

/-- 300 free frames. -/
def manyFrames : Kmem := ⟨List.range' 300 300, fun _ _ => 0⟩

theorem manyFrames_valid : Valid manyFrames.free := range_valid (by decide) _

/-- The first process starts on CPU 0 and forks. -/
def firstFork : List SpaceEvent :=
  [.userinit (fun _ => 0) 16, .table (.dispatch 0), .table (.resume 0), .table (.allocproc 0),
    .allocprocInit 0, .forkCopy 0, .table (.forkCommit 0)]

/-- The same in the process table. -/
def firstForkTable : List Event :=
  [.userinit, .dispatch 0, .resume 0, .allocproc 0, .allocprocInit 0 true, .forkCopy 0 true,
    .forkCommit 0]

theorem firstFork_run : ∃ s, run next firstFork (start manyFrames) = some s ∧
    run OsPlayground.step firstForkTable boot = some s.table ∧ s.sz Sysfile.initproc = PGSIZE := by
  obtain ⟨t, ht⟩ : ∃ t, run OsPlayground.step firstForkTable boot = some t := ⟨_, rfl⟩
  have hr := ht
  obtain ⟨t₁, h₁, hr⟩ := run_cons.1 hr
  obtain ⟨t₂, h₂, hr⟩ := run_cons.1 hr
  obtain ⟨t₃, h₃, hr⟩ := run_cons.1 hr
  obtain ⟨t₄, h₄, hr⟩ := run_cons.1 hr
  obtain ⟨t₅, h₅, hr⟩ := run_cons.1 hr
  obtain ⟨t₆, h₆, hr⟩ := run_cons.1 hr
  obtain ⟨t₇, h₇, hend⟩ := run_cons.1 hr
  have hreaped : reaped (.resume 0) t₂ = none := by
    have hrun : run OsPlayground.step (firstForkTable.take 2) boot = some t₂ := by
      simp [firstForkTable, run, h₁, h₂]
    have hnone : (run OsPlayground.step (firstForkTable.take 2) boot).bind
        (reaped (.resume 0)) = none := rfl
    rwa [hrun] at hnone
  have hruns : t₅.Runs 0 Sysfile.initproc := by
    have hrun : run OsPlayground.step (firstForkTable.take 5) boot = some t₅ := by
      simp [firstForkTable, run, h₁, h₂, h₃, h₄, h₅]
    have hsome : (run OsPlayground.step (firstForkTable.take 5) boot).map
        (fun t => (t.cpu 0, t.lock)) = some (some Sysfile.initproc, .free) := rfl
    rw [hrun] at hsome
    obtain ⟨hcpu, hlock⟩ := Prod.mk.inj (Option.some.inj hsome)
    exact ⟨hcpu, by rw [hlock]; decide, by rw [hlock]; decide⟩
  -- the frames: 300 at first, 68 for the first process, and 71 for the child
  have hcard : (start manyFrames).kmem.free.card = 300 := List.length_range'
  obtain ⟨s₁, g₁, rfl, hsz, hcard₁⟩ : ∃ s₁, next (.userinit (fun _ => 0) 16) (start manyFrames) =
      some s₁ ∧ s₁.table = t₁ ∧ s₁.sz Sysfile.initproc = PGSIZE ∧ _ :=
    next_userinit manyFrames_valid.ok (by decide) rfl h₁ (by omega)
  have g₂ := next_table (s := s₁) rfl rfl h₂
  have g₃ := next_table (s := { s₁ with table := t₂ }) rfl hreaped h₃
  have g₄ := next_table (s := { s₁ with table := t₃ }) rfl rfl h₄
  obtain ⟨s₅, g₅, rfl, hsz₅, hcard₅⟩ := next_allocprocInit (s := { s₁ with table := t₄ }) h₅ (by
    dsimp only
    omega)
  have hsound : s₅.Isolated ∧ ∀ q, s₅.WholeAt q := by
    have hstart : (start manyFrames).Isolated ∧ ∀ q, (start manyFrames).WholeAt q :=
      ⟨start_isolated manyFrames_valid, start_whole manyFrames⟩
    have hfirst := next_sound hstart g₁ (by
      show (start manyFrames).kmem.free.card ≠ 67
      omega)
    have hplain := next_sound (next_sound (next_sound hfirst g₂ trivial) g₃ trivial) g₄ trivial
    exact next_sound hplain g₅ trivial
  have hsize : s₅.sz Sysfile.initproc = PGSIZE := (congrFun hsz₅ _).trans hsz
  obtain ⟨s₆, g₆, rfl, hsz₆⟩ := next_forkCopy hsound.1 hsound.2 hruns h₆ (by
    rw [hsize]
    dsimp only [PGSIZE] at hcard₅ ⊢
    omega)
  have g₇ := next_table (s := s₆) rfl rfl h₇
  refine ⟨{ s₆ with table := t₇ }, ?_, ht.trans hend.symm, hsz₆.trans hsize⟩
  simp [firstFork, run, g₁, g₂, g₃, g₄, g₅, g₆, g₇]

theorem firstFork_keeps : Along next (fun s e _ => s.Keeps e) firstFork (start manyFrames) := by
  have hcard : (start manyFrames).kmem.free.card = 300 := List.length_range'
  refine fun _ _ => ⟨?_, fun _ _ => ⟨trivial, fun _ _ => ⟨trivial, fun _ _ => ⟨trivial, fun _ _ =>
    ⟨trivial, fun _ _ => ⟨trivial, fun _ _ => ⟨trivial, trivial⟩⟩⟩⟩⟩⟩⟩
  show (start manyFrames).kmem.free.card ≠ 67
  omega

theorem firstFork_sound {s : Spaces} (hr : run next firstFork (start manyFrames) = some s) :
    s.Isolated ∧ ∀ q, s.WholeAt q :=
  (throughout_of_along (fun _ _ _ h hk he => next_sound h he hk)
    ⟨start_isolated manyFrames_valid, start_whole manyFrames⟩ firstFork_keeps).end hr

theorem firstFork_caller {s : Spaces}
    (ht : run OsPlayground.step firstForkTable boot = some s.table) :
    s.table.caller 0 = some Sysfile.initproc := by
  have hcaller : (run OsPlayground.step firstForkTable boot).map (fun t => t.caller 0) =
      some (some Sysfile.initproc) := rfl
  rw [ht] at hcaller
  exact Option.some.inj hcaller

/-- The slot of the child. -/
def firstChild : Slot := ⟨1, by decide⟩

theorem firstFork_child {s : Spaces}
    (ht : run OsPlayground.step firstForkTable boot = some s.table) :
    s.table.holding firstChild = .space := by
  have hstate : (run OsPlayground.step firstForkTable boot).map
      (fun t => (t.proc firstChild).state) = some .runnable := rfl
  rw [ht] at hstate
  have hrunnable : (s.table.proc firstChild).state = .runnable := Option.some.inj hstate
  exact Ptable.holding_live (by rw [hrunnable]; decide) (by rw [hrunnable]; decide)

theorem isolated_run_fork : (∃ s, run next firstFork (start manyFrames) = some s) ∧
    Throughout next Isolated firstFork (start manyFrames) :=
  ⟨firstFork_run.imp fun _ h => h.1, isolated_run manyFrames_valid _⟩

/-- The parent has all its pages, until it gives them all back at once. -/
theorem whole_run_fork :
    Throughout next (fun s => ∀ q, s.WholeAt q) firstFork (start manyFrames) ∧
      ¬ Throughout next (fun s => ∀ q, s.WholeAt q) (firstFork ++ [.sbrk 0 (-4096)])
        (start manyFrames) := by
  refine ⟨(whole_run manyFrames_valid _).2 firstFork_keeps, fun h => ?_⟩
  obtain ⟨s, hr, ht, hsz⟩ := firstFork_run
  obtain ⟨s', hs', -⟩ := next_sbrk (firstFork_sound hr) (firstFork_caller ht) (-4096)
  have hkeeps := ((whole_run manyFrames_valid _).1 h).at hr hs' Sysfile.initproc
    (firstFork_caller ht)
  rw [hsz] at hkeeps
  exact absurd hkeeps (by decide)

/-- The parent asks for a page, and the memory of the child is what it was. -/
theorem private_run_fork : ∃ s s', run next firstFork (start manyFrames) = some s ∧
    run next [.sbrk 0 4096] s = some s' ∧ SameSpace firstChild s s' := by
  obtain ⟨s, hr, ht, -⟩ := firstFork_run
  obtain ⟨s', hs', ht'⟩ := next_sbrk (firstFork_sound hr) (firstFork_caller ht) 4096
  have hrun : run next [.sbrk 0 4096] s = some s' := by
    rw [run, hs']
    rfl
  refine ⟨s, s', hr, hrun, private_run (firstFork_sound hr).1 (firstFork_child ht) ?_ hrun⟩
  refine fun s₁ h₁ => ⟨⟨?_, ?_⟩, trivial⟩
  · rw [writer, firstFork_caller ht]
    decide
  · obtain rfl := Option.some.inj (hs'.symm.trans h₁)
    rw [ht']
    exact firstFork_child ht

end Spaces

end OsPlayground
