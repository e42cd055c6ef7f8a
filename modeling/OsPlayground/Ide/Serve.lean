import Mathlib.Algebra.Ring.Nat
import Mathlib.Data.Fintype.Card
import OsPlayground.Ide.Model

/-!
# The disk driver serves every request once and in order

* `decode_registers`: the disk reads from its registers what the driver meant.
* `Correct`: reads answered with what is on the disks, writes carried out, one request after another.
* `Queue`: the buffers on the queue, and where the disk and the processes are.
* **`queue_run`**: it holds in every run, so the requests are done in the order of the calls.
* **`iderw_returns`**: `iderw` returns when its own request is done, and not before.
* **`ide_panics`**: the driver never starts a request while the disk works on another.
-/

namespace OsPlayground

namespace Ide

open Lib Log Bio

/-! ## Registers -/

/-- **What the disk reads from its registers** is the drive and the block. -/
theorem decode_registers (dev : ℕ) {sector : ℕ} (h : sector < 2 ^ 28) :
    decode (registers dev sector) = (dev % 2, sector) := by
  have hlow : ∀ x : ℕ, x &&& 0xff = x % 256 := fun x => Nat.and_two_pow_sub_one_eq_mod x 8
  have hnib : ∀ x : ℕ, x &&& 0x0f = x % 16 := fun x => Nat.and_two_pow_sub_one_eq_mod x 4
  have hone : ∀ x : ℕ, x &&& 1 = x % 2 := fun x => Nat.and_one_is_mod x
  have hor : ∀ a b k : ℕ, a < 2 ^ k → a ||| (b <<< k) = a + b * 2 ^ k := fun a b k ha => by
    rw [Nat.or_comm, ← Nat.shiftLeft_add_eq_or_of_lt ha, Nat.shiftLeft_eq, Nat.add_comm]
  have hsel : ∀ i j : ℕ, i < 2 → j < 16 → 0xe0 ||| (i <<< 4) ||| j = 224 + i * 16 + j := by
    intro i j hi hj
    have hhigh : 0xe0 ||| (i <<< 4) = (14 + i) <<< 4 := by
      rw [show 0xe0 = 7 <<< 5 from rfl, ← Nat.shiftLeft_add_eq_or_of_lt
        (by rw [Nat.shiftLeft_eq]; omega), Nat.shiftLeft_eq, Nat.shiftLeft_eq, Nat.shiftLeft_eq]
      omega
    rw [hhigh, ← Nat.shiftLeft_add_eq_or_of_lt hj, Nat.shiftLeft_eq]
    omega
  simp only [decode, registers, hlow, hone, hnib, Nat.shiftRight_eq_div_pow]
  rw [hsel _ _ (Nat.mod_lt _ (by decide)) (Nat.mod_lt _ (by decide)), hor _ _ 8 (by omega),
    hor _ _ 16 (by omega), hor _ _ 24 (by omega)]
  exact Prod.ext (by dsimp only; omega) (by dsimp only; omega)

/-! ## What is done -/

/-- The request is answered as a disk with the contents `d` should. -/
def Answers (d : Disks) (x : Served) : Prop :=
  match x.req.cmd with
  | .read drive sector => x.ok = true → x.data = d drive sector
  | .write _ _ data => x.data = data

/-- The disks after the requests. -/
def play (d : Disks) (l : List Served) : Disks := l.foldl (fun d x => x.req.cmd.apply x.ok d) d

/-- Each request is answered as the disks are then. -/
def Correct (d : Disks) : List Served → Prop
  | [] => True
  | x :: l => Answers d x ∧ Correct (x.req.cmd.apply x.ok d) l

theorem play_snoc (d : Disks) (l : List Served) (x : Served) :
    play d (l ++ [x]) = x.req.cmd.apply x.ok (play d l) := List.foldl_concat ..

theorem Correct.snoc {d : Disks} {l : List Served} {x : Served} (h : Correct d l)
    (hx : Answers (play d l) x) : Correct d (l ++ [x]) := by
  induction l generalizing d with
  | nil => exact ⟨hx, trivial⟩
  | cons y l ih => exact ⟨h.1, ih h.2 hx⟩

/-- What the device does, with the head of the queue `l` and with the disks `d`. -/
inductive Serving (d : Disks) (head : Option Buf) (disks : Disks) : Device → Prop
  | ready (hhead : head = none) (hdisks : disks = d) : Serving d head disks .ready
  | busy {r} (hhead : head = some r) (hdisks : disks = d) : Serving d head disks (.busy (command r))
  | raised {r ok} (hhead : head = some r) (hdisks : disks = (command r).apply ok d) :
      Serving d head disks (.raised (command r) ok ((command r).result ok d))

theorem Serving.of_none {d disks : Disks} {dev : Device} (h : Serving d none disks dev) :
    dev = .ready ∧ disks = d := by
  cases h with
  | ready _ hdisks => exact ⟨rfl, hdisks⟩
  | busy hhead => cases hhead
  | raised hhead => cases hhead

theorem Serving.of_busy {d disks : Disks} {head : Option Buf} {c : Command}
    (h : Serving d head disks (.busy c)) : ∃ r, head = some r ∧ c = command r ∧ disks = d := by
  cases h with
  | busy hhead hdisks => exact ⟨_, hhead, rfl, hdisks⟩

theorem Serving.of_raised {d disks : Disks} {head : Option Buf} {c : Command} {ok : Bool}
    {data : Block} (h : Serving d head disks (.raised c ok data)) : ∃ r, head = some r ∧
      c = command r ∧ disks = c.apply ok d ∧ data = c.result ok d := by
  cases h with
  | raised hhead hdisks => exact ⟨_, hhead, rfl, hdisks, rfl⟩

variable {n : ℕ}

/-- Where the request `k` of a process for the buffer `b` is: done, or still on the queue `l`. -/
def Ticket (s : IdeState n) (l : List Index) (b : Index) (k : ℕ) : Prop :=
  (b ∉ l ∧ done (s.buf b) = true ∧
    ∃ x, s.served[k]? = some x ∧ x.req.buf = b ∧ x.data = (s.buf b).data) ∨
  ∃ i, l[i]? = some b ∧ k = s.served.length + i

/-- The queue holds the buffers `l`; the disks held `d` at first. -/
structure Queue (d : Disks) (s : IdeState n) (l : List Index) : Prop where
  links : IsNullList s.qnext s.idequeue l
  nodup : l.Nodup
  waited : ∀ b ∈ l, ∃ p k, s.pc p = some (b, k)
  pending : ∀ b ∈ l, done (s.buf b) = false
  owner : ∀ p b k, s.pc p = some (b, k) → (s.buf b).lock.pid = some p.val
  ticket : ∀ p b k, s.pc p = some (b, k) → Ticket s l b k
  order : s.issued = s.served.map Served.req ++ l.map fun b => ⟨b, command (s.buf b)⟩
  correct : Correct d s.served
  serving : Serving (play d s.served) (l.head?.map s.buf) s.disks s.device

section Steps

variable {d : Disks} {s s' : IdeState n} {l : List Index} {b : Index} {p : Fin n} {r : Buf}
  {ok : Bool} {data : Block} {k : ℕ}

theorem Queue.not_mem (h : Queue d s l) (hb : ∀ p k, s.pc p ≠ some (b, k)) : b ∉ l := fun hm => by
  obtain ⟨p, k, hp⟩ := h.waited b hm
  exact hb p k hp

theorem length_le {l : List Index} (h : l.Nodup) : l.length ≤ NBUF := by
  have := h.length_le_card
  rwa [Fintype.card_fin] at this

/-- **Appending** to the queue. -/
theorem append_links (hl : IsNullList s.qnext s.idequeue l) (hn : l.Nodup) (hb : b ∉ l) :
    IsNullList (append b s).qnext (append b s).idequeue (l ++ [b]) := by
  have hclean : IsNullList (Function.update s.qnext b none) s.idequeue l := by
    refine hl.congr fun x hx => Function.update_of_ne ?_ _ _
    rintro rfl
    exact hb hx
  unfold append
  cases l with
  | nil =>
    rw [show s.idequeue = none from hl]
    exact ⟨rfl, Function.update_self _ _ _⟩
  | cons a l =>
    rw [hl.1]
    dsimp only
    rw [hclean.lastFrom_eq (Nat.le_of_succ_le (length_le hn)), ← hl.1]
    exact hclean.snoc hn hb (Function.update_self _ _ _)

theorem append_eq (b : Index) (s : IdeState n) :
    append b s = { s with qnext := (append b s).qnext, idequeue := (append b s).idequeue } := by
  unfold append
  cases s.idequeue <;> rfl

theorem idestart_cases {o : Option Index} (ho : o = some b) (hready : s.device = .ready) :
    (FSSIZE ≤ (s.buf b).blockno ∧ idestart o s = .error "incorrect blockno") ∨
      idestart o s = .ok { s with device := .busy (command (s.buf b)) } := by
  subst ho
  unfold idestart
  dsimp only
  split_ifs with hblock
  · exact Or.inl ⟨hblock, rfl⟩
  · rw [hready]
    exact Or.inr rfl

/-- Nobody else waits for the buffer of a process that holds its lock. -/
theorem Queue.unclaimed (h : Queue d s l) (hp : s.pc p = none)
    (hpid : (s.buf b).lock.pid = some p.val) (q : Fin n) (k : ℕ) : s.pc q ≠ some (b, k) := by
  intro hq
  have hown := h.owner q b k hq
  rw [hpid] at hown
  obtain rfl : p = q := Fin.ext (Option.some.inj hown)
  rw [hp] at hq
  cases hq

/-- A request at the end of the queue, whatever the device does. -/
theorem Queue.issue {dev : Device} (h : Queue d s l) (hp : s.pc p = none)
    (hpid : (s.buf b).lock.pid = some p.val) (hdone : done (s.buf b) = false)
    (hs' : { s with
      pc := Function.update s.pc p (some (b, s.issued.length))
      issued := s.issued ++ [⟨b, command (s.buf b)⟩] } = s')
    (hserving : Serving (play d s.served) ((l ++ [b]).head?.map s.buf) s.disks dev) :
    Queue d { append b s' with device := dev } (l ++ [b]) := by
  have hfree := h.unclaimed hp hpid
  have hb : b ∉ l := h.not_mem hfree
  have hlinks : IsNullList (append b s').qnext (append b s').idequeue (l ++ [b]) := by
    rw [← hs']
    exact append_links h.links h.nodup hb
  have hlen : s.issued.length = s.served.length + l.length := by
    rw [h.order, List.length_append, List.length_map, List.length_map]
  rw [append_eq, ← hs']
  rw [← hs'] at hlinks
  refine ⟨hlinks, List.nodup_append.2 ⟨h.nodup, List.nodup_singleton b, ?_⟩, fun x hx => ?_,
    fun x hx => ?_, fun q x k hq => ?_, fun q x k hq => ?_, ?_, h.correct, hserving⟩
  · rintro x hx y hy rfl
    exact hb (List.mem_singleton.1 hy ▸ hx)
  · rcases List.mem_append.1 hx with hx | hx
    · obtain ⟨q, k, hq⟩ := h.waited x hx
      have hqp : q ≠ p := by
        rintro rfl
        rw [hp] at hq
        cases hq
      exact ⟨q, k, (Function.update_of_ne hqp _ _).trans hq⟩
    · obtain rfl := List.mem_singleton.1 hx
      exact ⟨p, _, Function.update_self _ _ _⟩
  · rcases List.mem_append.1 hx with hx | hx
    · exact h.pending x hx
    · obtain rfl := List.mem_singleton.1 hx
      exact hdone
  · change Function.update s.pc p (some (b, s.issued.length)) q = some (x, k) at hq
    by_cases hqp : q = p
    · subst hqp
      rw [Function.update_self] at hq
      obtain ⟨rfl, -⟩ := Prod.mk.inj (Option.some.inj hq)
      exact hpid
    · rw [Function.update_of_ne hqp] at hq
      exact h.owner q x k hq
  · change Function.update s.pc p (some (b, s.issued.length)) q = some (x, k) at hq
    by_cases hqp : q = p
    · subst hqp
      rw [Function.update_self] at hq
      obtain ⟨rfl, rfl⟩ := Prod.mk.inj (Option.some.inj hq)
      exact Or.inr ⟨l.length, by simp, hlen⟩
    · rw [Function.update_of_ne hqp] at hq
      rcases h.ticket q x k hq with ⟨hx, hd, hserved⟩ | ⟨i, hi, hk⟩
      · refine Or.inl ⟨fun hm => ?_, hd, hserved⟩
        rcases List.mem_append.1 hm with hm | hm
        · exact hx hm
        · obtain rfl := List.mem_singleton.1 hm
          exact hfree q k hq
      · refine Or.inr ⟨i, ?_, hk⟩
        rw [List.getElem?_append_left (List.getElem?_eq_some_iff.1 hi).1, hi]
  · show s.issued ++ [_] = _
    rw [h.order, List.map_append, ← List.append_assoc]
    rfl

/-- A queue that was empty starts to be served, one that was not goes on. -/
theorem iderw_queue (h : Queue d s l) (hp : s.pc p = none)
    (hpid : (s.buf b).lock.pid = some p.val) :
    (∃ s', iderw p b s = .ok s' ∧ Queue d s' (l ++ [b])) ∨
      ∃ msg, iderw p b s = .error msg ∧ (msg = "incorrect blockno" ∧ FSSIZE ≤ (s.buf b).blockno ∨
        holdingsleep (s.buf b).lock = false ∨ done (s.buf b) = true ∨
        ((s.buf b).dev ≠ 0 ∧ s.havedisk1 = false)) := by
  unfold iderw
  dsimp only
  by_cases hhold : holdingsleep (s.buf b).lock = false
  · rw [if_pos hhold]
    exact Or.inr ⟨_, rfl, Or.inr (Or.inl hhold)⟩
  rw [if_neg hhold]
  by_cases hdone : done (s.buf b) = true
  · rw [if_pos hdone]
    exact Or.inr ⟨_, rfl, Or.inr (Or.inr (Or.inl hdone))⟩
  rw [if_neg hdone]
  by_cases hdev : (s.buf b).dev ≠ 0 ∧ s.havedisk1 = false
  · rw [if_pos hdev]
    exact Or.inr ⟨_, rfl, Or.inr (Or.inr (Or.inr hdev))⟩
  rw [if_neg hdev]
  have hb : b ∉ l := h.not_mem (h.unclaimed hp hpid)
  generalize hs₁ : ({ s with
      pc := Function.update s.pc p (some (b, s.issued.length))
      issued := s.issued ++ [⟨b, command (s.buf b)⟩] } : IdeState n) = s₁
  have hqueue : ∀ dev, Serving (play d s.served) ((l ++ [b]).head?.map s.buf) s.disks dev →
      Queue d { append b s₁ with device := dev } (l ++ [b]) :=
    fun dev => h.issue hp hpid (Bool.eq_false_iff.2 hdone) hs₁
  have hlinks : IsNullList (append b s₁).qnext (append b s₁).idequeue (l ++ [b]) := by
    rw [← hs₁]
    exact append_links h.links h.nodup hb
  have hdevice : (append b s₁).device = s.device := by rw [append_eq, ← hs₁]
  have hbuf : (append b s₁).buf = s.buf := by rw [append_eq, ← hs₁]
  cases l with
  | nil =>
    have hhead : (append b s₁).idequeue = some b := hlinks.1
    obtain ⟨hready, hdisks⟩ := h.serving.of_none
    rw [← hdevice] at hready
    rw [if_pos hhead]
    rcases idestart_cases rfl hready (b := b) with ⟨hblock, herr⟩ | hok
    · rw [hbuf] at hblock
      exact Or.inr ⟨_, herr, Or.inl ⟨rfl, hblock⟩⟩
    · refine Or.inl ⟨_, hok, hqueue _ ?_⟩
      rw [hbuf]
      exact .busy rfl hdisks
  | cons a l =>
    have hhead : (append b s₁).idequeue ≠ some b := by
      rw [hlinks.1]
      rintro heq
      exact hb (Option.some.inj heq ▸ List.mem_cons_self)
    rw [if_neg hhead]
    have hq := hqueue s.device h.serving
    rw [← hdevice] at hq
    exact Or.inl ⟨_, rfl, hq⟩

theorem answers_of_result {x : Served} (hcmd : x.req.cmd = command r)
    (hdata : x.data = if r.dirty = false ∧ x.ok = true then (command r).result x.ok d else r.data) :
    Answers d x := by
  unfold Answers
  rw [hcmd]
  unfold command at hdata ⊢
  cases hd : r.dirty with
  | false =>
    rw [hd] at hdata
    simp only [true_and, Bool.false_eq_true, if_false] at hdata ⊢
    intro hok
    rw [if_pos hok] at hdata
    rw [hdata, Command.result, if_pos hok]
  | true =>
    rw [hd] at hdata
    simpa using hdata

/-- The requests of buffers that are as before. -/
theorem requests_congr {f g : Index → Buf} (hfg : ∀ x ∈ l, f x = g x) :
    l.map (fun x => (⟨x, command (f x)⟩ : Request)) = l.map fun x => ⟨x, command (g x)⟩ :=
  List.map_congr_left fun x hx => by rw [hfg x hx]

theorem head_congr {f g : Index → Buf} (hfg : ∀ x ∈ l, f x = g x) :
    l.head?.map f = l.head?.map g := by
  cases l with
  | nil => rfl
  | cons a l => exact congrArg some (hfg a List.mem_cons_self)

/-- The head of the queue is done, whatever the device does next. -/
theorem Queue.serve {buf' : Index → Buf} {dev : Device} (h : Queue d s (b :: l))
    (hself : buf' b = { s.buf b with data := data, valid := true, dirty := false })
    (hother : ∀ x ≠ b, buf' x = s.buf x)
    (hanswer : Answers (play d s.served) ⟨⟨b, command (s.buf b)⟩, ok, data⟩)
    (hserving : Serving (play d (s.served ++ [⟨⟨b, command (s.buf b)⟩, ok, data⟩]))
      (l.head?.map s.buf) s.disks dev) :
    Queue d { s with
      idequeue := s.qnext b
      buf := buf'
      device := dev
      served := s.served ++ [⟨⟨b, command (s.buf b)⟩, ok, data⟩] } l := by
  obtain ⟨hb, hnodup⟩ := List.nodup_cons.1 h.nodup
  have hrest : ∀ x ∈ l, buf' x = s.buf x := fun x hx => hother x fun hxb => hb (hxb ▸ hx)
  refine ⟨h.links.tail, hnodup, fun x hx => h.waited x (List.mem_cons_of_mem b hx), fun x hx => ?_,
    fun q x k hq => ?_, fun q x k hq => ?_, ?_, h.correct.snoc hanswer, ?_⟩
  · dsimp only
    rw [hrest x hx]
    exact h.pending x (List.mem_cons_of_mem b hx)
  · have hown := h.owner q x k hq
    dsimp only
    by_cases hxb : x = b
    · rw [hxb, hself]
      rwa [hxb] at hown
    · rwa [hother x hxb]
  · rcases h.ticket q x k hq with ⟨hx, hd, y, hy, hyb, hyd⟩ | ⟨i, hi, hk⟩
    · have hxb : x ≠ b := fun hxb => hx (hxb ▸ List.mem_cons_self)
      refine Or.inl ⟨fun hm => hx (List.mem_cons_of_mem b hm), ?_, y, ?_, hyb, ?_⟩
      · dsimp only
        rwa [hother x hxb]
      · rwa [List.getElem?_append_left (List.getElem?_eq_some_iff.1 hy).1]
      · dsimp only
        rwa [hother x hxb]
    · cases i with
      | zero =>
        obtain rfl : b = x := Option.some.inj hi
        refine Or.inl ⟨hb, ?_, ⟨⟨b, command (s.buf b)⟩, ok, data⟩, ?_, rfl, ?_⟩
        · dsimp only
          rw [hself]
          rfl
        · rw [hk, Nat.add_zero, List.getElem?_concat_length]
        · dsimp only
          rw [hself]
      | succ i => exact Or.inr ⟨i, hi, by rw [List.length_append, List.length_singleton]; omega⟩
  · dsimp only
    rw [h.order, requests_congr hrest, List.map_append, List.append_assoc]
    rfl
  · dsimp only
    rw [head_congr hrest]
    exact hserving

/-- **The interrupt** takes the head off the queue and starts the next one. -/
theorem ideintr_queue {c : Command} (h : Queue d s l) (hdev : s.device = .raised c ok data) :
    (∃ s' b l', l = b :: l' ∧ ideintr ok data s = .ok s' ∧ Queue d s' l') ∨
      ∃ b ∈ l, FSSIZE ≤ (s.buf b).blockno ∧ ideintr ok data s = .error "incorrect blockno" := by
  have hserving := h.serving
  rw [hdev] at hserving
  obtain ⟨r, hhead, rfl, hdisks, hdata⟩ := hserving.of_raised
  cases l with
  | nil => cases hhead
  | cons b l =>
  obtain rfl : s.buf b = r := Option.some.inj hhead
  have hb : b ∉ l := (List.nodup_cons.1 h.nodup).1
  unfold ideintr
  rw [h.links.head_eq, List.head?_cons]
  dsimp only
  generalize hdata' : (if (s.buf b).dirty = false ∧ ok = true then data else (s.buf b).data) = data'
  generalize hbuf' : Function.update s.buf b
    { s.buf b with data := data', valid := true, dirty := false } = buf'
  have hself : buf' b = { s.buf b with data := data', valid := true, dirty := false } := by
    rw [← hbuf', Function.update_self]
  have hother : ∀ x ≠ b, buf' x = s.buf x := fun x hx => by rw [← hbuf', Function.update_of_ne hx]
  have hanswer : Answers (play d s.served) ⟨⟨b, command (s.buf b)⟩, ok, data'⟩ :=
    answers_of_result rfl (by rw [← hdata', hdata])
  have hplay : s.disks = play d (s.served ++ [⟨⟨b, command (s.buf b)⟩, ok, data'⟩]) := by
    rw [play_snoc, hdisks]
  cases l with
  | nil =>
    rw [if_pos (show s.qnext b = none from h.links.tail)]
    exact Or.inl ⟨_, b, [], rfl, rfl, h.serve hself hother hanswer (.ready rfl hplay)⟩
  | cons a l =>
    have hnext : s.qnext b = some a := h.links.tail.1
    have hab := hother a fun hab => hb (hab ▸ List.mem_cons_self)
    rw [if_neg (by rw [hnext]; simp)]
    rcases idestart_cases (s := { s with
      idequeue := s.qnext b
      buf := buf'
      device := .ready
      served := s.served ++ [⟨⟨b, command (s.buf b)⟩, ok, data'⟩] }) hnext rfl with ⟨hblock, herr⟩ | hok
    · refine Or.inr ⟨a, List.mem_cons_of_mem b List.mem_cons_self, ?_, herr⟩
      dsimp only at hblock
      rwa [hab] at hblock
    · refine Or.inl ⟨_, b, a :: l, rfl, hok, h.serve hself hother hanswer ?_⟩
      dsimp only
      rw [hab]
      exact .busy rfl hplay

/-- The guards of `iderw`. -/
def Guarded (s : IdeState n) (b : Index) : Prop :=
  holdingsleep (s.buf b).lock = true ∧ done (s.buf b) = false ∧
    ((s.buf b).dev = 0 ∨ s.havedisk1 = true)

/-- A panic of `iderw` says which guard failed. -/
theorem not_guarded (h : holdingsleep (s.buf b).lock = false ∨ done (s.buf b) = true ∨
    ((s.buf b).dev ≠ 0 ∧ s.havedisk1 = false)) : ¬ Guarded s b := by
  rintro ⟨hhold, hdone, hdev⟩
  rcases h with hhold' | hdone' | ⟨hdev', hdisk'⟩
  · rw [hhold] at hhold'
    cases hhold'
  · rw [hdone] at hdone'
    cases hdone'
  · rcases hdev with hdev | hdisk
    · exact hdev' hdev
    · rw [hdisk] at hdisk'
      cases hdisk'

/-- A process whose request is done leaves, and its buffer is not on the queue. -/
theorem Queue.leave (h : Queue d s l) (hp : s.pc p = some (b, k)) (hdone : done (s.buf b) = true) :
    Queue d { s with pc := Function.update s.pc p none } l := by
  have hne : ∀ q x k', Function.update s.pc p none q = some (x, k') → s.pc q = some (x, k') := by
    intro q x k' hq
    by_cases hqp : q = p
    · rw [hqp, Function.update_self] at hq
      cases hq
    · rwa [Function.update_of_ne hqp] at hq
  refine ⟨h.links, h.nodup, fun x hx => ?_, h.pending, fun q x k' hq => h.owner q x k' (hne q x k' hq),
    fun q x k' hq => h.ticket q x k' (hne q x k' hq), h.order, h.correct, h.serving⟩
  obtain ⟨q, k', hq⟩ := h.waited x hx
  refine ⟨q, k', (Function.update_of_ne ?_ _ _).trans hq⟩
  rintro rfl
  rw [hp] at hq
  obtain ⟨rfl, -⟩ := Prod.mk.inj (Option.some.inj hq)
  rw [h.pending b hx] at hdone
  cases hdone

/-- A buffer that nobody waits for is changed. -/
theorem Queue.modify (h : Queue d s l) (hnone : ∀ p k, s.pc p ≠ some (b, k)) (r : Buf) :
    Queue d { s with buf := Function.update s.buf b r } l := by
  have hother : ∀ x ≠ b, Function.update s.buf b r x = s.buf x := fun x hx =>
    Function.update_of_ne hx _ _
  have hrest : ∀ x ∈ l, Function.update s.buf b r x = s.buf x := fun x hx =>
    hother x fun hxb => h.not_mem hnone (hxb ▸ hx)
  have hwaits : ∀ p x k, s.pc p = some (x, k) → x ≠ b := by
    rintro p x k hp rfl
    exact hnone p k hp
  refine ⟨h.links, h.nodup, h.waited, fun x hx => ?_, fun p x k hp => ?_, fun p x k hp => ?_, ?_,
    h.correct, ?_⟩
  · dsimp only
    rw [hrest x hx]
    exact h.pending x hx
  · dsimp only
    rw [hother x (hwaits p x k hp)]
    exact h.owner p x k hp
  · have ht := h.ticket p x k hp
    unfold Ticket at ht ⊢
    dsimp only
    rwa [hother x (hwaits p x k hp)]
  · dsimp only
    rw [h.order, requests_congr hrest]
  · dsimp only
    rw [head_congr hrest]
    exact h.serving

/-- **What a step may come to.** It panics on a block that does not exist, or where `iderw` finds
nothing to do, no lock or no disk. -/
theorem ideStep_queue (h : Queue d s l) (e : IdeEvent n) :
    ideStep e s = .ok none ∨ (∃ s' l', ideStep e s = .ok (some s') ∧ Queue d s' l') ∨
      ∃ msg, ideStep e s = .error msg ∧
        ((msg = "incorrect blockno" ∧ ∃ b, (b ∈ l ∨ ∃ p, e = .iderw p b) ∧ FSSIZE ≤ (s.buf b).blockno) ∨
          ∃ p b, e = .iderw p b ∧ ¬ Guarded s b) := by
  cases e with
  | iderw p b =>
    unfold ideStep
    dsimp only
    split_ifs with hp
    · rcases iderw_queue h hp.1 hp.2 with ⟨s', hs, hq⟩ | ⟨msg, herr, hwhy⟩
      · rw [hs]
        exact Or.inr (Or.inl ⟨s', _, rfl, hq⟩)
      · rw [herr]
        refine Or.inr (Or.inr ⟨msg, rfl, ?_⟩)
        rcases hwhy with ⟨rfl, hblock⟩ | hguard
        · exact Or.inl ⟨rfl, b, Or.inr ⟨p, rfl⟩, hblock⟩
        · exact Or.inr ⟨p, b, rfl, not_guarded hguard⟩
    · exact Or.inl rfl
  | check p =>
    unfold ideStep
    dsimp only
    rcases hp : s.pc p with _ | ⟨b, k⟩
    · exact Or.inl rfl
    dsimp only
    split_ifs with hdone
    · exact Or.inr (Or.inl ⟨_, l, rfl, h.leave hp hdone⟩)
    · exact Or.inr (Or.inl ⟨s, l, rfl, h⟩)
  | finish ok =>
    unfold ideStep
    dsimp only
    rcases hdev : s.device with _ | c | ⟨c, ok', data⟩
    · exact Or.inl rfl
    · have hserving := h.serving
      rw [hdev] at hserving
      obtain ⟨r, hhead, rfl, hdisks⟩ := hserving.of_busy
      refine Or.inr (Or.inl ⟨_, l, rfl, ⟨h.links, h.nodup, h.waited, h.pending, h.owner, h.ticket, h.order,
        h.correct, ?_⟩⟩)
      dsimp only
      rw [hdisks]
      exact .raised hhead rfl
    · exact Or.inl rfl
  | ideintr =>
    unfold ideStep
    dsimp only
    rcases hdev : s.device with _ | c | ⟨c, ok', data⟩
    · exact Or.inl rfl
    · exact Or.inl rfl
    · rcases ideintr_queue h hdev with ⟨s', b, l', -, hs, hq⟩ | ⟨b, hb, hblock, herr⟩
      · dsimp only
        rw [hs]
        exact Or.inr (Or.inl ⟨s', l', rfl, hq⟩)
      · dsimp only
        rw [herr]
        exact Or.inr (Or.inr ⟨_, rfl, Or.inl ⟨rfl, b, Or.inl hb, hblock⟩⟩)
  | modify b r =>
    unfold ideStep
    dsimp only
    split_ifs with hfree
    · exact Or.inr (Or.inl ⟨_, l, rfl, h.modify (fun p k hp => hfree p (by rw [hp]; rfl)) r⟩)
    · exact Or.inl rfl

end Steps

/-! ## Every run -/

section Runs

variable {n : ℕ} {d : Disks} {s s' : IdeState n} {l : List Index} {b : Index} {p : Fin n} {k : ℕ}
  {e : IdeEvent n} {es : List (IdeEvent n)} {buf : Index → Buf} {havedisk1 : Bool}

theorem boot_queue (buf : Index → Buf) (havedisk1 : Bool) (d : Disks) :
    Queue d (ideBoot n buf havedisk1 d) [] where
  links := rfl
  nodup := List.nodup_nil
  waited _ h := absurd h List.not_mem_nil
  pending _ h := absurd h List.not_mem_nil
  owner _ _ _ h := (nomatch h)
  ticket _ _ _ h := (nomatch h)
  order := rfl
  correct := trivial
  serving := .ready rfl rfl

theorem ideNext_queue (h : ∃ l, Queue d s l) (he : ideNext e s = some s') : ∃ l, Queue d s' l := by
  obtain ⟨l, h⟩ := h
  unfold ideNext at he
  rcases ideStep_queue h e with hnone | ⟨s₁, l', hs, hq⟩ | ⟨msg, herr, -⟩
  · rw [hnone] at he
    cases he
  · rw [hs] at he
    obtain rfl := Option.some.inj he
    exact ⟨l', hq⟩
  · rw [herr] at he
    cases he

/-- **Every request once and in order.** In every run, the requests of the calls of `iderw`, in the
order of the calls, are those that are done and then those on the queue; the reads among the first were
answered, and the disks changed, as if they were done one after another. -/
theorem queue_run (buf : Index → Buf) (havedisk1 : Bool) (d : Disks) (es : List (IdeEvent n)) :
    Throughout ideNext (fun s => ∃ l, Queue d s l) es (ideBoot n buf havedisk1 d) :=
  throughout_of_inv (fun _ _ _ h he => ideNext_queue h he) ⟨[], boot_queue buf havedisk1 d⟩

/-- **`iderw` returns for its own request.** In every run, a process in `iderw` with the request `k`
finds its buffer done if and only if the request `k` is done, and then the buffer has its data. -/
theorem iderw_returns (hr : run ideNext es (ideBoot n buf havedisk1 d) = some s)
    (hp : s.pc p = some (b, k)) : (done (s.buf b) = true ↔ k < s.served.length) ∧
      ∀ x, s.served[k]? = some x → s.issued[k]? = some x.req ∧ x.req.buf = b ∧
        x.data = (s.buf b).data := by
  obtain ⟨l, h⟩ := (queue_run buf havedisk1 d es).end hr
  rcases h.ticket p b k hp with ⟨-, hd, y, hy, hyb, hyd⟩ | ⟨i, hi, hk⟩
  · have hlt : k < s.served.length := (List.getElem?_eq_some_iff.1 hy).1
    refine ⟨iff_of_true hd hlt, fun x hx => ?_⟩
    obtain rfl : y = x := Option.some.inj (hy.symm.trans hx)
    refine ⟨?_, hyb, hyd⟩
    rw [h.order, List.getElem?_append_left (by rwa [List.length_map]), List.getElem?_map, hy]
    rfl
  · have hb : b ∈ l := List.mem_of_getElem? hi
    refine ⟨iff_of_false (by rw [h.pending b hb]; decide) (by omega), fun x hx => ?_⟩
    have := (List.getElem?_eq_some_iff.1 hx).1
    omega

/-- **Panics.** In every run, a step panics only because a block does not exist or because the caller
of `iderw` breaks its guards: the driver never waits for a busy disk and never starts nothing. -/
theorem ide_panics {msg : String} (hr : run ideNext es (ideBoot n buf havedisk1 d) = some s)
    (herr : ideStep e s = .error msg) :
    (msg = "incorrect blockno" ∧ ∃ b, FSSIZE ≤ (s.buf b).blockno) ∨
      ∃ p b, e = .iderw p b ∧ ¬ Guarded s b := by
  obtain ⟨l, h⟩ := (queue_run buf havedisk1 d es).end hr
  rcases ideStep_queue h e with hnone | ⟨s₁, l', hs, -⟩ | ⟨msg', herr', hwhy⟩
  · rw [hnone] at herr
    cases herr
  · rw [hs] at herr
    cases herr
  · obtain rfl := Except.error.inj (herr.symm.trans herr')
    refine hwhy.imp_left ?_
    rintro ⟨hmsg, b, -, hblock⟩
    exact ⟨hmsg, b, hblock⟩

/-- A buffer of disk 0 that process 0 has locked, to be read. -/
def lockedBuf (blockno : ℕ) : Buf := { lock := ⟨true, some 0⟩, blockno := blockno }

/-- One read, up to the interrupt. -/
theorem iderw_returns_one : ∃ s : IdeState 1,
    run ideNext [.iderw 0 3, .finish true, .ideintr]
      (ideBoot 1 (fun _ => lockedBuf 7) false fun _ b i => b + i) = some s ∧
    (done (s.buf 3) = true ↔ 0 < s.served.length) ∧
      ∀ x, s.served[0]? = some x → s.issued[0]? = some x.req ∧ x.req.buf = 3 ∧
        x.data = (s.buf 3).data := by
  obtain ⟨s, hr, hp⟩ : ∃ s : IdeState 1, run ideNext [.iderw 0 3, .finish true, .ideintr]
      (ideBoot 1 (fun _ => lockedBuf 7) false fun _ b i => b + i) = some s ∧ s.pc 0 = some (3, 0) :=
    ⟨_, rfl, rfl⟩
  exact ⟨s, hr, iderw_returns hr hp⟩

/-- Block 1000 of a disk with 1000 blocks. -/
def badBlock : IdeState 1 := ideBoot 1 (fun _ => lockedBuf 1000) false fun _ b i => b + i

theorem ide_panics_block :
    ("incorrect blockno" = "incorrect blockno" ∧ ∃ b, FSSIZE ≤ (badBlock.buf b).blockno) ∨
      ∃ p b, (IdeEvent.iderw 0 3 : IdeEvent 1) = .iderw p b ∧ ¬ Guarded badBlock b := by
  have hrun : run ideNext [] (ideBoot 1 (fun _ => lockedBuf 1000) false fun _ b i => b + i) =
      some badBlock := rfl
  have herr : ideStep (.iderw 0 3) badBlock = .error "incorrect blockno" := rfl
  exact ide_panics hrun herr

end Runs

end Ide

end OsPlayground
