import OsPlayground.Bio.Model
import OsPlayground.Lib.NullList

/-!
# The disk driver

`ide.c` with the two disks behind it: any number of processes in `iderw`, the queue of buffers, the
registers, and the interrupts. Each section under `idelock` is one step.

* `registers`, `decode`: where a block is, as the driver writes it and as the disk reads it.
* `Device`: the disk controller works on one command at a time and then raises an interrupt.
* `idestart`, `ideintr`, `iderw`: the functions of the driver.
* `IdeEvent`, `ideStep`: what can happen next.

The other fields of a buffer belong to the process that holds its sleep lock, which is how `bio.c`
calls the driver.
-/

namespace OsPlayground

namespace Ide

open Lib Log Bio

/-! ## Registers -/

/-- What `idestart` writes to the ports `0x1f3` to `0x1f6`. -/
def registers (dev sector : ℕ) : ℕ × ℕ × ℕ × ℕ :=
  (sector &&& 0xff, (sector >>> 8) &&& 0xff, (sector >>> 16) &&& 0xff,
    0xe0 ||| ((dev &&& 1) <<< 4) ||| ((sector >>> 24) &&& 0x0f))

/-- The drive and the sector that the disk takes from its registers. -/
def decode (r : ℕ × ℕ × ℕ × ℕ) : ℕ × ℕ :=
  ((r.2.2.2 >>> 4) &&& 1,
    r.1 ||| (r.2.1 <<< 8) ||| (r.2.2.1 <<< 16) ||| ((r.2.2.2 &&& 0x0f) <<< 24))

/-! ## The disks -/

/-- What the driver tells the controller to do. -/
inductive Command
  | read (drive sector : ℕ)
  | write (drive sector : ℕ) (data : Block)

/-- The controller is ready, works on a command, or has raised the interrupt at the end of one: `ok`
without an error, with what `insl` reads. -/
inductive Device
  | ready
  | busy (c : Command)
  | raised (c : Command) (ok : Bool) (data : Block)

/-- The two disks, by drive. -/
abbrev Disks := ℕ → Disk

/-- The disks after a command. -/
def Command.apply (c : Command) (ok : Bool) (d : Disks) : Disks :=
  match c with
  | .read _ _ => d
  | .write drive sector data =>
    if ok = true then Function.update d drive (Function.update (d drive) sector data) else d

/-- What is in the data register afterwards. -/
def Command.result (c : Command) (ok : Bool) (d : Disks) : Block :=
  match c with
  | .read drive sector => if ok = true then d drive sector else fun _ => 0
  | .write _ _ data => data

/-! ## The driver -/

/-- A request that `iderw` has put on the queue. -/
structure Request where
  buf : Index
  cmd : Command

/-- A request that `ideintr` has taken off the queue, with what its buffer held then. -/
structure Served where
  req : Request
  ok : Bool
  data : Block

/-- The queue of buffers, the controller and the two disks. -/
structure IdeState (n : ℕ) where
  buf : Index → Buf
  qnext : Index → Option Index
  idequeue : Option Index
  havedisk1 : Bool
  device : Device
  disks : Disks
  /-- The buffer that the process waits for in `iderw`, and the number of its request. -/
  pc : Fin n → Option (Index × ℕ)
  /-- History variables: the requests, in the order of the calls, and those that are done. -/
  issued : List Request
  served : List Served

/-- What the driver asks the disk to do for a buffer. -/
def command (r : Buf) : Command :=
  let (drive, sector) := decode (registers r.dev r.blockno)
  if r.dirty then .write drive sector r.data else .read drive sector

variable {n : ℕ}

/-- `idestart`. `idewait` spins while the disk works on a command. -/
def idestart (b : Option Index) (s : IdeState n) : Except String (IdeState n) :=
  match b with
  | none => .error "idestart"
  | some b =>
    if FSSIZE ≤ (s.buf b).blockno then .error "incorrect blockno"
    else
      match s.device with
      | .busy _ => .error "idewait spins"
      | _ => .ok { s with device := .busy (command (s.buf b)) }

/-- `ideintr`. An error of the disk is not reported: the buffer is valid all the same. -/
def ideintr (ok : Bool) (data : Block) (s : IdeState n) : Except String (IdeState n) :=
  match s.idequeue with
  | none => .ok { s with device := .ready }
  | some b =>
    let r := s.buf b
    let data := if r.dirty = false ∧ ok = true then data else r.data
    let s' : IdeState n := { s with
      idequeue := s.qnext b
      buf := Function.update s.buf b { r with data := data, valid := true, dirty := false }
      device := .ready
      served := s.served ++ [⟨⟨b, command r⟩, ok, data⟩] }
    if s'.idequeue = none then .ok s' else idestart s'.idequeue s'

/-- The loop over `pp` and `*pp = b`. -/
def append (b : Index) (s : IdeState n) : IdeState n :=
  let qnext := Function.update s.qnext b none
  match s.idequeue with
  | none => { s with qnext := qnext, idequeue := some b }
  | some h => { s with qnext := Function.update qnext (lastFrom qnext NBUF h) (some b) }

/-- The test of the loop of `iderw`. -/
def done (r : Buf) : Bool := r.valid && !r.dirty

/-- `iderw` up to the loop. -/
def iderw (p : Fin n) (b : Index) (s : IdeState n) : Except String (IdeState n) :=
  let r := s.buf b
  if holdingsleep r.lock = false then .error "iderw: buf not locked"
  else if done r = true then .error "iderw: nothing to do"
  else if r.dev ≠ 0 ∧ s.havedisk1 = false then .error "iderw: ide disk 1 not present"
  else
    let s := append b { s with
      pc := Function.update s.pc p (some (b, s.issued.length))
      issued := s.issued ++ [⟨b, command r⟩] }
    if s.idequeue = some b then idestart (some b) s else .ok s

/-- What happens next. -/
inductive IdeEvent (n : ℕ)
  | iderw (p : Fin n) (b : Index)
  /-- A round of the loop of `iderw`. -/
  | check (p : Fin n)
  /-- The disk is done with its command. -/
  | finish (ok : Bool)
  | ideintr
  /-- A buffer changes while no process is in `iderw` for it. -/
  | modify (b : Index) (r : Buf)

/-- One step: an error for a panic, `none` for an event that cannot happen. -/
def ideStep (e : IdeEvent n) (s : IdeState n) : Except String (Option (IdeState n)) :=
  match e with
  | .iderw p b =>
    if s.pc p = none ∧ (s.buf b).lock.pid = some p.val then (iderw p b s).map some else .ok none
  | .check p =>
    match s.pc p with
    | none => .ok none
    | some (b, _) =>
      if done (s.buf b) = true then .ok (some { s with pc := Function.update s.pc p none })
      else .ok (some s)
  | .finish ok =>
    match s.device with
    | .busy c => .ok (some { s with device := .raised c ok (c.result ok s.disks), disks := c.apply ok s.disks })
    | _ => .ok none
  | .ideintr =>
    match s.device with
    | .raised _ ok data => (ideintr ok data s).map some
    | _ => .ok none
  | .modify b r =>
    if ∀ p, (s.pc p).map Prod.fst ≠ some b then
      .ok (some { s with buf := Function.update s.buf b r })
    else .ok none

/-- The state after a step that neither panics nor is impossible. -/
def ideNext (e : IdeEvent n) (s : IdeState n) : Option (IdeState n) :=
  match ideStep e s with
  | .error _ => none
  | .ok o => o

/-- After `ideinit`. -/
def ideBoot (n : ℕ) (buf : Index → Buf) (havedisk1 : Bool) (disks : Disks) : IdeState n where
  buf := buf
  qnext _ := none
  idequeue := none
  havedisk1 := havedisk1
  device := .ready
  disks := disks
  pc _ := none
  issued := []
  served := []

end Ide

end OsPlayground
