import OsPlayground.Vm.Grow
import OsPlayground.Vm.Kernel

/-!
# Copying to user memory

* `uva2ka`, `copyout`: as the code does it, for every address and length.
* `Built`: a page directory made by `setupkvm`, `allocuvm` and `clearpteu`.
* `CopiesOut`: what `copyout` should do; **`copyout_iff`**: when it does.
-/

namespace OsPlayground

open Lib Finset

/-- The number of addresses. -/
abbrev ADDRS : ℕ := 4294967296

/-- `uva2ka`, with the frame. It reads the entry that `walkpgdir` returns, also if there is none. -/
def uva2ka (d : Pgdir) (v : ℕ) : Except Panic (Option Frame) :=
  match d.pde (v / NPTENTRIES) with
  | none => .error "page fault"
  | some tab =>
    match tab.pte (v % NPTENTRIES) with
    | none => .ok none
    | some e => if e.u then .ok (some e.frame) else .ok none

/-- `memmove(P2V(f) + off, p, n)`. -/
def Kmem.write (f : Frame) (off n : ℕ) (p : ℕ → ℕ) (m : Kmem) : Kmem :=
  ⟨m.freelist, Function.update m.mem f fun i =>
    if off ≤ i ∧ i < off + n then p (i - off) else m.mem f i⟩

/-- `copyout`: each round copies at least one byte. -/
def copyout (d : Pgdir) (va : ℕ) (p : ℕ → ℕ) (len : ℕ) (m : Kmem) : Except Panic (Kmem × ℤ) :=
  if 0 < len then
    match uva2ka d (va / PGSIZE) with
    | .error s => .error s
    | .ok none => .ok (m, -1)
    | .ok (some f) =>
      let n := min (PGSIZE - va % PGSIZE) len
      copyout d ((va / PGSIZE * PGSIZE + PGSIZE) % ADDRS) (fun i => p (i + n)) (len - n)
        (m.write f (va % PGSIZE) n p)
  else .ok (m, 0)
termination_by len
decreasing_by
  have := Nat.mod_lt va (show 0 < PGSIZE by decide)
  omega

/-! ## What it should do -/

/-- The address of byte `i`. -/
def addr (va i : ℕ) : ℕ := (va + i) % ADDRS

/-- Byte `i` goes to a page that is present with `PTE_U`. -/
def UserByte (d : Pgdir) (va i : ℕ) : Prop :=
  ∃ e, d.lookup (addr va i / PGSIZE) = some e ∧ e.u = true

/-- Where byte `i` goes. -/
def Place (d : Pgdir) (va i : ℕ) (f : Frame) (o : ℕ) : Prop :=
  ∃ e, d.lookup (addr va i / PGSIZE) = some e ∧ e.frame = f ∧ addr va i % PGSIZE = o

/-- The first `k` bytes were copied and nothing else was written. -/
structure CopiedTo (d : Pgdir) (va : ℕ) (p : ℕ → ℕ) (k : ℕ) (m m' : Kmem) : Prop where
  freelist : m'.freelist = m.freelist
  bytes : ∀ i < k, ∀ f o, Place d va i f o → m'.mem f o = p i
  other : ∀ f o, (∀ i < k, ¬ Place d va i f o) → m'.mem f o = m.mem f o

/-- The other bytes of user memory are what they were. -/
def SameElsewhere (d : Pgdir) (va k : ℕ) (m m' : Kmem) : Prop :=
  ∀ v < WINPAGE, ∀ e, d.lookup v = some e → ∀ o < PGSIZE,
    (∀ i < k, addr va i ≠ v * PGSIZE + o) → m'.mem e.frame o = m.mem e.frame o

/-- `copyout` returns. It returns 0 and has copied all bytes if all of them go to user pages; else it
returns -1 and has written only bytes before the first one that does not. -/
def CopiesOut (d : Pgdir) (va : ℕ) (p : ℕ → ℕ) (len : ℕ) (m : Kmem) : Prop :=
  ∃ m' r, copyout d va p len m = .ok (m', r) ∧
    ((∀ i < len, UserByte d va i) ∧ r = 0 ∧ CopiedTo d va p len m m' ∧ SameElsewhere d va len m m' ∨
      ∃ k < len, ¬ UserByte d va k ∧ (∀ i < k, UserByte d va i) ∧ r = -1 ∧
        CopiedTo d va p k m m' ∧ SameElsewhere d va k m m')

/-- The first byte that does not go to a user page, if any, goes to a page with a page table. -/
def HasTable (d : Pgdir) (va len : ℕ) : Prop :=
  ∀ k < len, ¬ UserByte d va k → (∀ i < k, UserByte d va i) →
    (d.pde (addr va k / PGSIZE / NPTENTRIES)).isSome

/-! ## One page -/

/-- Pages from the window on are not for the user, and the others are on different frames. -/
structure Apart (d : Pgdir) : Prop where
  kernel : ∀ v e, WINPAGE ≤ v → d.lookup v = some e → e.u = false
  frames : ∀ v < WINPAGE, ∀ v' < WINPAGE, ∀ e e', d.lookup v = some e → d.lookup v' = some e' →
    e.frame = e'.frame → v = v'

section Copy

variable {d : Pgdir} {m m₁ m' : Kmem} {va len n k i j o : ℕ} {p : ℕ → ℕ} {f : Frame} {e : Pte}

theorem Apart.user_lt (hd : Apart d) (h : UserByte d va i) : addr va i / PGSIZE < WINPAGE := by
  obtain ⟨e, he, hu⟩ := h
  by_contra hge
  rw [hd.kernel _ e (Nat.le_of_not_lt hge) he] at hu
  cases hu

theorem Apart.place_inj (hd : Apart d) (hi : UserByte d va i) (hj : UserByte d va j)
    (hia : i < ADDRS) (hja : j < ADDRS) (h : Place d va i f o) (h' : Place d va j f o) : i = j := by
  obtain ⟨e, he, hf, ho⟩ := h
  obtain ⟨e', he', hf', ho'⟩ := h'
  have hpage := hd.frames _ (hd.user_lt hi) _ (hd.user_lt hj) e e' he he' (hf.trans hf'.symm)
  have haddr : addr va i = addr va j := by
    rw [← Nat.div_add_mod (addr va i) PGSIZE, ← Nat.div_add_mod (addr va j) PGSIZE, hpage, ho, ho']
  simp only [addr, ADDRS] at haddr hia hja
  omega

theorem addr_first (hva : va < ADDRS) (hi : i < PGSIZE - va % PGSIZE) :
    addr va i / PGSIZE = va / PGSIZE ∧ addr va i % PGSIZE = va % PGSIZE + i := by
  simp only [addr, ADDRS, PGSIZE] at hva hi ⊢
  omega

theorem addr_next (hn : n = PGSIZE - va % PGSIZE) :
    addr ((va / PGSIZE * PGSIZE + PGSIZE) % ADDRS) j = addr va (n + j) := by
  simp only [addr, ADDRS, PGSIZE] at hn ⊢
  omega

theorem place_first (hva : va < ADDRS) (he : d.lookup (va / PGSIZE) = some e)
    (hi : i < PGSIZE - va % PGSIZE) : Place d va i f o ↔ e.frame = f ∧ va % PGSIZE + i = o := by
  obtain ⟨hpage, hoff⟩ := addr_first hva hi
  rw [Place, hpage, hoff, he]
  simp

theorem user_first (hva : va < ADDRS) (hi : i < PGSIZE - va % PGSIZE) :
    UserByte d va i ↔ ∃ e, d.lookup (va / PGSIZE) = some e ∧ e.u = true := by
  rw [UserByte, (addr_first hva hi).1]

/-- One round, then the rest. -/
theorem CopiedTo.round (hd : Apart d) (hva : va < ADDRS) (hlen : n + k ≤ ADDRS)
    (he : d.lookup (va / PGSIZE) = some e) (hu : e.u = true) (hn : n ≤ PGSIZE - va % PGSIZE)
    (hnext : 0 < k → n = PGSIZE - va % PGSIZE)
    (huser : ∀ j < k, UserByte d ((va / PGSIZE * PGSIZE + PGSIZE) % ADDRS) j)
    (h : CopiedTo d ((va / PGSIZE * PGSIZE + PGSIZE) % ADDRS) (fun i => p (i + n)) k
      (m.write e.frame (va % PGSIZE) n p) m') : CopiedTo d va p (n + k) m m' := by
  have hplace : ∀ j < k, ∀ f o, Place d ((va / PGSIZE * PGSIZE + PGSIZE) % ADDRS) j f o ↔
      Place d va (n + j) f o := by
    intro j hj f o
    rw [Place, Place, addr_next (hnext (by omega))]
  have huser' : ∀ j < k, UserByte d va (n + j) := by
    intro j hj
    have h := huser j hj
    rw [UserByte, addr_next (hnext (by omega))] at h
    exact h
  have hwrite : ∀ f o, (m.write e.frame (va % PGSIZE) n p).mem f o =
      if e.frame = f ∧ va % PGSIZE ≤ o ∧ o < va % PGSIZE + n then p (o - va % PGSIZE)
      else m.mem f o := by
    intro f o
    by_cases hf : e.frame = f
    · subst hf
      simp [Kmem.write]
    · rw [if_neg fun h => hf h.1]
      exact congrFun (Function.update_of_ne (Ne.symm hf) _ _) o
  refine ⟨h.freelist, fun i hi f o hp => ?_, fun f o hout => ?_⟩
  · by_cases hin : i < n
    · have hi' : i < PGSIZE - va % PGSIZE := by omega
      have hrest : ∀ j < k, ¬ Place d ((va / PGSIZE * PGSIZE + PGSIZE) % ADDRS) j f o := by
        intro j hj hpj
        have := hd.place_inj ((user_first hva hi').2 ⟨e, he, hu⟩) (huser' j hj) (by omega)
          (by omega) hp ((hplace j hj f o).1 hpj)
        omega
      obtain ⟨hf, ho⟩ := (place_first hva he hi').1 hp
      rw [h.other f o hrest, hwrite, if_pos ⟨hf, by omega, by omega⟩, ← ho, Nat.add_sub_cancel_left]
    · have hj : i - n < k := by omega
      have hsum : n + (i - n) = i := by omega
      have hb := h.bytes (i - n) hj f o ((hplace _ hj f o).2 (by rwa [hsum]))
      rw [hb]
      exact congrArg p (by omega)
  · have hrest : ∀ j < k, ¬ Place d ((va / PGSIZE * PGSIZE + PGSIZE) % ADDRS) j f o :=
      fun j hj hpj => hout (n + j) (by omega) ((hplace j hj f o).1 hpj)
    rw [h.other f o hrest, hwrite, if_neg]
    rintro ⟨hf, h₁, h₂⟩
    have hi' : o - va % PGSIZE < PGSIZE - va % PGSIZE := by omega
    exact hout (o - va % PGSIZE) (by omega) ((place_first hva he hi').2 ⟨hf, by omega⟩)

theorem uva2ka_cases (d : Pgdir) (v : ℕ) :
    (d.pde (v / NPTENTRIES) = none ∧ d.lookup v = none ∧ uva2ka d v = .error "page fault") ∨
      ((d.pde (v / NPTENTRIES)).isSome ∧ (¬ ∃ e, d.lookup v = some e ∧ e.u = true) ∧
        uva2ka d v = .ok none) ∨
      ∃ e, d.lookup v = some e ∧ e.u = true ∧ uva2ka d v = .ok (some e.frame) := by
  unfold uva2ka Pgdir.lookup
  cases hp : d.pde (v / NPTENTRIES) with
  | none => simp
  | some tab =>
    cases ht : tab.pte (v % NPTENTRIES) with
    | none => simp [ht]
    | some e => by_cases hu : e.u = true <;> simp [ht, hu]

/-- **The loop of `copyout`**: it copies up to the first byte that does not go to a user page. -/
theorem copyout_spec (hd : Apart d) (hva : va < ADDRS) (hlen : len ≤ ADDRS) :
    ∃ k ≤ len, (∀ i < k, UserByte d va i) ∧
      ((k = len ∧ ∃ m', copyout d va p len m = .ok (m', 0) ∧ CopiedTo d va p k m m') ∨
        k < len ∧ ¬ UserByte d va k ∧
          ((d.pde (addr va k / PGSIZE / NPTENTRIES) = none ∧
              copyout d va p len m = .error "page fault") ∨
            ((d.pde (addr va k / PGSIZE / NPTENTRIES)).isSome ∧
              ∃ m', copyout d va p len m = .ok (m', -1) ∧ CopiedTo d va p k m m'))) := by
  have hrefl : ∀ m : Kmem, CopiedTo d va p 0 m m := fun m =>
    ⟨rfl, fun i hi => absurd hi (Nat.not_lt_zero i), fun _ _ _ => rfl⟩
  induction len using Nat.strong_induction_on generalizing va p m with
  | _ len ih =>
  rw [copyout]
  by_cases hpos : 0 < len
  swap
  · obtain rfl : len = 0 := by omega
    rw [if_neg hpos]
    exact ⟨0, le_rfl, fun i hi => absurd hi (Nat.not_lt_zero i), Or.inl ⟨rfl, m, rfl, hrefl m⟩⟩
  rw [if_pos hpos]
  have hroom : 0 < PGSIZE - va % PGSIZE := by
    have := Nat.mod_lt va (show 0 < PGSIZE by decide)
    omega
  have hfirst : addr va 0 / PGSIZE = va / PGSIZE := (addr_first hva hroom).1
  rcases uva2ka_cases d (va / PGSIZE) with ⟨hp, hl, hc⟩ | ⟨hp, hno, hc⟩ | ⟨e, he, hu, hc⟩
  · -- no page table
    rw [hc]
    refine ⟨0, by omega, fun i hi => absurd hi (Nat.not_lt_zero i), Or.inr ⟨hpos, ?_,
      Or.inl ⟨by rwa [hfirst], rfl⟩⟩⟩
    rw [user_first hva hroom, hl]
    simp
  · -- no user page
    rw [hc]
    refine ⟨0, by omega, fun i hi => absurd hi (Nat.not_lt_zero i), Or.inr ⟨hpos, ?_,
      Or.inr ⟨by rwa [hfirst], m, rfl, hrefl m⟩⟩⟩
    rwa [user_first hva hroom]
  · rw [hc]
    dsimp only
    set n := min (PGSIZE - va % PGSIZE) len with hn
    have hva' : (va / PGSIZE * PGSIZE + PGSIZE) % ADDRS < ADDRS := Nat.mod_lt _ (by decide)
    obtain ⟨k, hk, hbytes, hor⟩ := @ih (len - n) (by omega) (m.write e.frame (va % PGSIZE) n p) _
      (fun i => p (i + n)) hva' (by omega)
      (fun m => ⟨rfl, fun i hi => absurd hi (Nat.not_lt_zero i), fun _ _ _ => rfl⟩)
    have hfull : ∀ {j}, n + j < len → n = PGSIZE - va % PGSIZE := by omega
    have haddr : ∀ {j}, n + j < len →
        addr ((va / PGSIZE * PGSIZE + PGSIZE) % ADDRS) j = addr va (n + j) := fun h =>
      addr_next (hfull h)
    have hround : ∀ m', CopiedTo d ((va / PGSIZE * PGSIZE + PGSIZE) % ADDRS) (fun i => p (i + n)) k
        (m.write e.frame (va % PGSIZE) n p) m' → CopiedTo d va p (n + k) m m' := fun m' h =>
      h.round hd hva (by omega) he hu (by omega) (fun hk' => hfull (j := 0) (by omega)) hbytes
    refine ⟨n + k, by omega, fun i hi => ?_, ?_⟩
    · by_cases hin : i < n
      · exact (user_first hva (by omega)).2 ⟨e, he, hu⟩
      · have hj := hbytes (i - n) (by omega)
        have hsum : n + (i - n) = i := by omega
        rw [UserByte, haddr (by omega), hsum] at hj
        exact hj
    · rcases hor with ⟨hall, m', hcopy, hto⟩ | ⟨hlt, hbad, hor⟩
      · exact Or.inl ⟨by omega, m', hcopy, hround m' hto⟩
      · rw [UserByte, haddr (by omega)] at hbad
        rw [haddr (by omega)] at hor
        refine Or.inr ⟨by omega, hbad, hor.imp_right fun ⟨hp, m', hcopy, hto⟩ => ?_⟩
        exact ⟨hp, m', hcopy, hround m' hto⟩

theorem CopiedTo.sameElsewhere (hd : Apart d) (huser : ∀ i < k, UserByte d va i)
    (h : CopiedTo d va p k m m') : SameElsewhere d va k m m' := by
  intro v hv e he o ho hout
  refine h.other _ _ fun i hi ⟨e', he', hf, hoff⟩ => hout i hi ?_
  have hpage := hd.frames _ (hd.user_lt (huser i hi)) v hv e' e he' he hf
  rw [← Nat.div_add_mod (addr va i) PGSIZE, hpage, hoff, Nat.mul_comm]

end Copy

/-! ## Directories -/

/-- A directory made by `setupkvm`, `allocuvm` and `clearpteu`, in a memory where anything else may
happen to the other frames. -/
inductive Built : Pgdir → Kmem → Prop
  | setupkvm {m m' : Kmem} {d : Pgdir} (hm : Valid m.free) (h : setupkvm m = .ok (m', some d)) :
    Built d m'
  | allocuvm {m m' : Kmem} {d d' : Pgdir} {oldsz newsz r : ℕ} (hb : Built d m)
    (h : allocuvm d oldsz newsz m = .ok (m', d', r)) : Built d' m'
  | clearpteu {m : Kmem} {d d' : Pgdir} {v : ℕ} (hb : Built d m) (h : clearpteu d v = .ok d') :
    Built d' m
  | other {m m' : Kmem} {d : Pgdir} (hb : Built d m) (h : Valid (m'.free + d.frames)) : Built d m'

section Built

variable {m m' : Kmem} {d d' : Pgdir} {oldsz newsz v n r : ℕ}

/-- Whether it succeeds or not, `allocuvm` moves frames between the free list and the directory, and
maps nothing from the window on. -/
theorem allocLoop_frames (hsz : newsz < WINPAGE * PGSIZE)
    (h : allocLoop oldsz newsz n v d m = .ok (m', d', r)) :
    m'.free + d'.frames = m.free + d.frames ∧ ∀ x, WINPAGE ≤ x → d'.lookup x = d.lookup x := by
  have hdealloc : ∀ {d₁ d₂ : Pgdir} {m₁ m₂ : Kmem} {r : ℕ},
      deallocuvm d₁ newsz oldsz m₁ = .ok (m₂, d₂, r) →
      m₂.free + d₂.frames = m₁.free + d₁.frames ∧
        ∀ x, WINPAGE ≤ x → d₂.lookup x = d₁.lookup x := by
    intro d₁ d₂ m₁ m₂ r h
    obtain ⟨hu, -, hl⟩ := deallocuvm_spec hsz.le h
    refine ⟨hu.frames_eq, fun x hx => ?_⟩
    rw [hl, if_neg]
    rintro ⟨-, hlt⟩
    have := lt_winpage hsz.le hlt
    omega
  induction n generalizing v d m with
  | zero =>
    obtain ⟨rfl, rfl, -⟩ : m = m' ∧ d = d' ∧ newsz = r := by simpa [allocLoop] using h
    exact ⟨rfl, fun _ _ => rfl⟩
  | succ n ih =>
    unfold allocLoop at h
    by_cases hlt : v * PGSIZE < newsz
    swap
    · rw [if_neg hlt] at h
      obtain ⟨rfl, rfl, -⟩ : m = m' ∧ d = d' ∧ newsz = r := by simpa using h
      exact ⟨rfl, fun _ _ => rfl⟩
    rw [if_pos hlt] at h
    have hvw := lt_winpage hsz.le hlt
    rcases hk : kalloc m with ⟨m₁, _ | f⟩
    · obtain ⟨rfl, -⟩ := kalloc_none hk
      rw [hk] at h
      dsimp only at h
      split at h
      · cases h
      · rename_i hda
        obtain ⟨rfl, rfl, -⟩ : _ = m' ∧ _ = d' ∧ _ := by simpa using h
        exact hdealloc hda
    · have hfree := kalloc_some hk
      rw [hk] at h
      dsimp only at h
      rcases hmap : mappages d (v * PGSIZE) PGSIZE (f * PGSIZE) true true (m₁.memset f 0) with
        s | ⟨m₂, d₁, ok⟩
      · rw [hmap] at h
        cases h
      · have hmapped := mapPage_owned hvw hmap
        obtain ⟨-, -, hl⟩ := mapPage_spec (hvw.trans winpage_lt) hmap
        have hl' : ∀ x, WINPAGE ≤ x → d₁.lookup x = d.lookup x := fun x hx => by
          rw [hl, if_neg (by rintro ⟨-, rfl⟩; omega)]
        rw [Kmem.memset_free] at hmapped
        rw [hmap] at h
        cases ok with
        | true =>
          rw [if_pos rfl] at hmapped
          obtain ⟨hc, hx⟩ := ih h
          refine ⟨?_, fun x hxw => (hx x hxw).trans (hl' x hxw)⟩
          rw [hc, hmapped, hfree]
          abel
        | false =>
          rw [if_neg Bool.false_ne_true, add_zero] at hmapped
          dsimp only at h
          split at h
          · cases h
          · rename_i hda
            obtain ⟨hc, hx⟩ := hdealloc hda
            split at h
            · cases h
            · rename_i hkf
              obtain ⟨rfl, rfl, -⟩ : _ = m' ∧ _ = d' ∧ _ := by simpa using h
              refine ⟨?_, fun x hxw => (hx x hxw).trans (hl' x hxw)⟩
              rw [(kfree_spec hkf).1, hfree, add_assoc, hc, hmapped, add_assoc]

theorem allocuvm_frames (h : allocuvm d oldsz newsz m = .ok (m', d', r)) :
    m'.free + d'.frames = m.free + d.frames ∧ ∀ x, WINPAGE ≤ x → d'.lookup x = d.lookup x := by
  unfold allocuvm at h
  split_ifs at h with hbig hlt
  · obtain ⟨rfl, rfl, -⟩ : m = m' ∧ d = d' ∧ 0 = r := by simpa using h
    exact ⟨rfl, fun _ _ => rfl⟩
  · obtain ⟨rfl, rfl, -⟩ : m = m' ∧ d = d' ∧ oldsz = r := by simpa using h
    exact ⟨rfl, fun _ _ => rfl⟩
  · exact allocLoop_frames (Nat.lt_of_not_le hbig) h

theorem clearpteu_spec (h : clearpteu d v = .ok d') : d'.tables = d.tables ∧ d'.frame = d.frame ∧
    ∀ x, d'.lookup x =
      if x = v then (d.lookup v).map fun e => { e with u := false } else d.lookup x := by
  unfold clearpteu at h
  split at h
  · cases h
  · rename_i tab hp
    obtain rfl := Except.ok.inj h
    refine ⟨Pgdir.tables_setPte hp _, rfl, fun x => ?_⟩
    rw [Pgdir.lookup_setPte hp, Pgdir.lookup_of_pde hp]

theorem user_of_frames (h : ∀ x, (d'.lookup x).map Pte.frame = (d.lookup x).map Pte.frame) :
    d'.user = d.user := by
  refine Finset.sum_congr rfl fun x _ => ?_
  have hx := h x
  cases hl : d.lookup x <;> cases hl' : d'.lookup x <;> simp_all

theorem frames_of_nodup (h : d.user.Nodup) {v v' : ℕ} (hv : v < WINPAGE) (hv' : v' < WINPAGE)
    {e e' : Pte} (he : d.lookup v = some e) (he' : d.lookup v' = some e')
    (hf : e.frame = e'.frame) : v = v' := by
  by_contra hne
  have hsplit := Finset.add_sum_erase (range WINPAGE)
    (fun x => entry (d.lookup x) fun e => ({e.frame} : Multiset Frame)) (mem_range.2 hv)
  rw [Pgdir.user, ← hsplit] at h
  have hmem : e.frame ∈ entry (d.lookup v) fun e => ({e.frame} : Multiset Frame) := by
    rw [he, entry_some]
    exact Multiset.mem_singleton_self _
  refine not_mem_of_nodup h hmem
    (Multiset.mem_sum.2 ⟨v', Finset.mem_erase.2 ⟨Ne.symm hne, mem_range.2 hv'⟩, ?_⟩)
  rw [he', entry_some, hf]
  exact Multiset.mem_singleton_self _

/-- What every such directory has. -/
theorem Built.inv (hb : Built d m) : Valid (m.free + d.frames) ∧
    ∀ v e, WINPAGE ≤ v → d.lookup v = some e → e.u = false := by
  induction hb with
  | setupkvm hm h =>
    rcases setupkvm_spec hm.ok with ⟨m₁, d₁, hs, hnew⟩ | ⟨m₁, hs, -⟩
    · rw [h] at hs
      obtain ⟨rfl, rfl⟩ : _ = m₁ ∧ _ = d₁ := by simpa using hs
      exact ⟨by rw [hnew.free]; exact hm, fun v e _ he => hnew.kernel v e he⟩
    · rw [h] at hs
      cases hs
  | allocuvm hb h ih =>
    obtain ⟨hc, hl⟩ := allocuvm_frames h
    exact ⟨by rw [hc]; exact ih.1, fun v e hv he => ih.2 v e hv ((hl v hv).symm.trans he)⟩
  | clearpteu hb h ih =>
    rename_i d d' v
    obtain ⟨ht, hf, hl⟩ := clearpteu_spec h
    have hframe : ∀ x, (d'.lookup x).map Pte.frame = (d.lookup x).map Pte.frame := by
      intro x
      rw [hl]
      split_ifs with hx
      · subst hx
        cases d.lookup x <;> rfl
      · rfl
    refine ⟨?_, fun x e hx he => ?_⟩
    · rw [Pgdir.frames, ht, hf, user_of_frames hframe]
      exact ih.1
    · rw [hl] at he
      split_ifs at he
      · obtain ⟨e', -, rfl⟩ := Option.map_eq_some_iff.1 he
        rfl
      · exact ih.2 x e hx he
  | other hb h ih => exact ⟨h, ih.2⟩

theorem Built.apart (hb : Built d m) : Apart d := by
  obtain ⟨hv, hk⟩ := hb.inv
  have hnodup : d.user.Nodup :=
    (Multiset.nodup_add.1 (Multiset.nodup_add.1 hv.nodup).2.1).2.1
  exact ⟨hk, fun v hv v' hv' e e' he he' hf => frames_of_nodup hnodup hv hv' he he' hf⟩

end Built

/-- **`copyout`** checks every page if and only if the first page that is not a user page has a page
table. -/
theorem copyout_iff {d : Pgdir} {m : Kmem} (hb : Built d m) (va len : BitVec 32) (p : ℕ → ℕ) :
    CopiesOut d va.toNat p len.toNat m ↔ HasTable d va.toNat len.toNat := by
  have hd := hb.apart
  obtain ⟨k, hk, huser, hor⟩ := copyout_spec (p := p) (m := m) hd va.isLt len.isLt.le
  rcases hor with ⟨rfl, m', hc, hto⟩ | ⟨hlt, hbad, ⟨hp, hc⟩ | ⟨hp, m', hc, hto⟩⟩
  · refine iff_of_true ⟨m', 0, hc, Or.inl ⟨huser, rfl, hto, hto.sameElsewhere hd huser⟩⟩ ?_
    exact fun k hk hbad _ => absurd (huser k hk) hbad
  · refine iff_of_false ?_ fun h => ?_
    · rintro ⟨m', r, h, -⟩
      rw [hc] at h
      cases h
    · have := h k hlt hbad huser
      rw [hp] at this
      cases this
  · refine iff_of_true ⟨m', -1, hc, Or.inr ⟨k, hlt, hbad, huser, rfl, hto,
      hto.sameElsewhere hd huser⟩⟩ fun k' hk' hbad' huser' => ?_
    have heq : k' = k := by
      rcases lt_trichotomy k' k with h | h | h
      · exact absurd (huser k' h) hbad'
      · exact h
      · exact absurd (huser' k h) hbad
    rwa [heq]

theorem range_valid {n : ℕ} (hn : n ≤ 1000) (mem : Frame → ℕ → ℕ) :
    Valid (⟨List.range' 300 n, mem⟩ : Kmem).free := by
  refine ⟨Multiset.coe_nodup.2 List.nodup_range', fun f hf => ?_⟩
  have hr : f ∈ List.range' 300 n := hf
  rw [List.mem_range'_1] at hr
  have hbound : ∀ x : ℕ, 300 ≤ x → x < 300 + n →
      2148662408 ≤ 2147483648 + x * 4096 ∧ x * 4096 < 234881024 := by omega
  exact hbound f hr.1 hr.2

/-- 71 free frames. A new directory takes 65 of them. -/
def freshMemory : Kmem := ⟨List.range' 300 71, fun _ _ => 0⟩

theorem freshMemory_valid : Valid freshMemory.free := range_valid (by decide) _

theorem freshMemory_setupkvm :
    ∃ m d, setupkvm freshMemory = .ok (m, some d) ∧ NewKernel freshMemory m d := by
  rcases setupkvm_spec freshMemory_valid.ok with h | ⟨m, -, -, hcard, -⟩
  · exact h
  · have : freshMemory.free.card = 71 := rfl
    omega

theorem built_two : ∃ d m, Built d m ∧
    ∀ x, x * PGSIZE < 8192 → ∃ e, d.lookup x = some e ∧ e.u = true := by
  obtain ⟨m, d, h, hnew⟩ := freshMemory_setupkvm
  have hsz : 8192 < WINPAGE * PGSIZE := by
    unfold WINPAGE
    decide
  have hnone : ∀ x, pages 0 ≤ x → x * PGSIZE < 8192 → d.lookup x = none := fun x _ hx =>
    hnew.lookup x ((lt_winpage hsz.le hx).trans_le (by unfold WINPAGE; exact Nat.sub_le _ _))
  have hcard : 2 * (8192 / PGSIZE + 1) ≤ m.free.card := by
    have h₁ := hnew.card
    have h₂ : freshMemory.free.card = 71 := rfl
    have h₃ : 8192 / PGSIZE = 2 := rfl
    omega
  obtain ⟨m', d', hcall, hext, -⟩ := allocuvm_enough (Nat.zero_le _) hsz hnone
    (hnew.free ▸ freshMemory_valid) hcard (by decide)
  refine ⟨d', m', .allocuvm (.setupkvm freshMemory_valid h) hcall, fun x hx => ?_⟩
  obtain ⟨f, -, hf, -⟩ := hext.fresh x (Nat.zero_le _) hx
  exact ⟨_, hf, rfl⟩

/-- Ten bytes across the boundary of two pages. -/
theorem copyout_iff_two : ∃ d m m', Built d m ∧ copyout d 4090 id 10 m = .ok (m', 0) ∧
    CopiedTo d 4090 id 10 m m' := by
  obtain ⟨d, m, hb, huser⟩ := built_two
  have hbyte : ∀ i < 10, UserByte d 4090 i := fun i hi =>
    huser _ (by
      have haddr : addr 4090 i = 4090 + i := Nat.mod_eq_of_lt (by unfold ADDRS; omega)
      rw [haddr]
      exact (Nat.div_mul_le_self _ _).trans_lt (by omega))
  obtain ⟨m', r, hc, ⟨-, rfl, hto, -⟩ | ⟨k, hk, hno, -⟩⟩ :=
    (copyout_iff hb 4090 10 id).mpr fun k hk hno => absurd (hbyte k hk) hno
  · exact ⟨d, m, m', hb, hc, hto⟩
  · exact absurd (hbyte k hk) hno

/-- One byte at an address without a page table. -/
theorem not_copiesOut : ¬ ∀ (d : Pgdir) (m : Kmem), Built d m → ∀ (va len : BitVec 32) (p : ℕ → ℕ),
    CopiesOut d va.toNat p len.toNat m := by
  intro h
  obtain ⟨m, d, hs, hnew⟩ := freshMemory_setupkvm
  obtain ⟨m', r, hc, -⟩ := h d m (.setupkvm freshMemory_valid hs) 0x40000000 1 fun _ => 0
  have hslot : d.pde (0x40000000 / PGSIZE / NPTENTRIES) = none := by
    have hno : 0x40000000 / PGSIZE / NPTENTRIES ∉ d.slots := by
      rw [hnew.slots, mem_kernelSlots]
      rintro ⟨x, hx, hi⟩
      rw [pages_kmap] at hx
      have hN : NPTENTRIES = 1024 := rfl
      have hP : PGSIZE = 4096 := rfl
      rw [hN, hP] at hi
      omega
    rw [Pgdir.slots, Finset.mem_filter] at hno
    cases hp : d.pde (0x40000000 / PGSIZE / NPTENTRIES) with
    | none => rfl
    | some tab => exact absurd ⟨mem_range.2 (by decide), by rw [hp]; rfl⟩ hno
  have hfault : uva2ka d ((0x40000000 : BitVec 32).toNat / PGSIZE) = .error "page fault" := by
    unfold uva2ka
    rw [show (0x40000000 : BitVec 32).toNat = 0x40000000 from rfl, hslot]
  rw [copyout, if_pos (by decide), hfault] at hc
  cases hc

end OsPlayground
