import PynqPrio.UartDriver

/-!
# The UART core

The device on the other side of the registers: two FIFOs, the error bits of `STATUS`,
which a read clears, and the latch of the interrupt. The device goes on by itself after
every access: it sends bytes, receives bytes and meets line errors.
-/
namespace PynqPrio.Uart
open Programs Programs.Driver Programs.Prog

def fifoDepth : ℕ := 16

/-- The registers and FIFOs of the core. The last four fields are a record of what has
happened: the bytes written to `TX`, those of them that met a full FIFO, and how often the
error bits have been set. -/
structure UartRegs where
  rx : List (BitVec 8)
  tx : List (BitVec 8)
  ie : Bool
  overrun : Bool
  frame : Bool
  parity : Bool
  latched : Bool
  written : List (BitVec 8)
  dropped : List (BitVec 8)
  overruns : ℕ
  frames : ℕ
  deriving DecidableEq

def statusWord (rxvalid rxfull txempty txfull ie overrun frame parity : Bool) : BitVec 32 :=
  (if rxvalid then statusRxvalid else 0) ||| (if rxfull then statusRxfull else 0) |||
  (if txempty then statusTxempty else 0) ||| (if txfull then statusTxfull else 0) |||
  (if ie then statusIe else 0) ||| (if overrun then statusOverrun else 0) |||
  (if frame then statusFrame else 0) ||| (if parity then statusParity else 0)

inductive Activity where
  | drain
  | arrive (b : BitVec 8)
  | overrun
  | frame
  | parity

namespace UartRegs

def txFull (d : UartRegs) : Bool := decide (fifoDepth ≤ d.tx.length)

def rxFull (d : UartRegs) : Bool := decide (fifoDepth ≤ d.rx.length)

def status (d : UartRegs) : BitVec 32 :=
  statusWord (!d.rx.isEmpty) d.rxFull d.tx.isEmpty d.txFull d.ie d.overrun d.frame d.parity

def setOverrun (d : UartRegs) : UartRegs :=
  { d with overrun := true, overruns := if d.overrun = true then d.overruns else d.overruns + 1 }

def setFrame (d : UartRegs) : UartRegs :=
  { d with frame := true, frames := if d.frame = true then d.frames else d.frames + 1 }

/-- The interrupt is latched when the transmitter becomes empty and when the receiver
becomes non-empty. A byte that finds the receiver full is an overrun. -/
def act (d : UartRegs) : Activity → UartRegs
  | .drain => { d with
      tx := d.tx.tail
      latched := d.latched || (!d.tx.isEmpty && d.tx.tail.isEmpty) }
  | .arrive b => if d.rxFull = true then d.setOverrun
      else { d with rx := d.rx ++ [b], latched := d.latched || d.rx.isEmpty }
  | .overrun => d.setOverrun
  | .frame => d.setFrame
  | .parity => { d with parity := true }

def acts (d : UartRegs) (l : List Activity) : UartRegs := l.foldl act d

/-- The error bits are cleared when `STATUS` has been read. -/
def clearErrors (d : UartRegs) : UartRegs :=
  { d with overrun := false, frame := false, parity := false }

/-- A byte written to `TX`. -/
def send (d : UartRegs) (b : BitVec 8) : UartRegs :=
  if d.txFull = true then { d with written := d.written ++ [b], dropped := d.dropped ++ [b] }
  else { d with written := d.written ++ [b], tx := d.tx ++ [b] }

/-- The reset bits of `CONTROL` empty the FIFOs. -/
def control (d : UartRegs) (v : BitVec 32) : UartRegs :=
  { d with
    tx := if v &&& controlRstTx ≠ 0 then [] else d.tx
    rx := if v &&& controlRstRx ≠ 0 then [] else d.rx
    ie := decide (v &&& controlIe ≠ 0)
    latched := d.latched || (decide (v &&& controlRstTx ≠ 0) && !d.tx.isEmpty) }

/-- `CONTROL` cannot be read, and an empty receiver gives any byte: `stale`. -/
def read (d : UartRegs) (stale : BitVec 32) (offset : ℕ) : BitVec 32 × UartRegs :=
  if offset = uliteRx then
    match d.rx with
    | [] => (stale, d)
    | b :: rest => (b.setWidth 32, { d with rx := rest })
  else if offset = uliteStatus then (d.status, d.clearErrors)
  else (stale, d)

def write (d : UartRegs) (val : BitVec 32) (offset : ℕ) : UartRegs :=
  if offset = uliteTx then d.send (val.setWidth 8)
  else if offset = uliteControl then d.control val
  else d

end UartRegs

/-- What is left open: a value that is read from nowhere, the answer of a kernel function,
and what the device does before the next access. -/
structure Outcome where
  stale : BitVec 32
  result : ℤ
  acts : List Activity

/-- An access to the registers, or a kernel function that answers as `k` says. -/
def UartRegs.answer (d : UartRegs) (k : Outcome) : (p : Port) → Option (Port.Res p × UartRegs)
  | .in32 offset => some ((d.read k.stale offset).1, (d.read k.stale offset).2.acts k.acts)
  | .out32 val offset => some ((), (d.write val offset).acts k.acts)
  | .kzalloc | .kasprintf | .platformGetResource | .consoleEnabled =>
    some (decide (k.result = 0), d.acts k.acts)
  | .clkGet => some (if k.result < 0 then .error k.result else .ok (), d.acts k.acts)
  | .clkEnable | .requestIrq | .uartRegisterDriver | .platformGetIrq | .clkPrepareEnable
  | .uartAddOnePort | .uartRemoveOnePort => some (k.result, d.acts k.acts)

/-- The core as the device of the driver. -/
def uartCore : Machine Port Port.Res UartRegs := ofAnswer UartRegs.answer

abbrev Sys := Config UartMem Event UartRegs

section Device

variable {d : UartRegs} {l : List Activity}

/-- What every activity keeps is kept. -/
theorem UartRegs.acts_invariant (inv : UartRegs → Prop) (hact : ∀ d a, inv d → inv (d.act a))
    (h : inv d) (l : List Activity) : inv (d.acts l) := by
  induction l generalizing d with
  | nil => exact h
  | cons a l ih => exact ih (hact d a h)

/-! The bits of `STATUS`. -/

theorem status_txfull (d : UartRegs) : d.status &&& statusTxfull = 0 ↔ d.txFull = false := by
  have hbit : ∀ a b c e f g h i : Bool,
      statusWord a b c e f g h i &&& statusTxfull = 0 ↔ e = false := by decide
  rw [UartRegs.status, hbit]

theorem status_overrun (d : UartRegs) : d.status &&& statusOverrun = 0 ↔ d.overrun = false := by
  have hbit : ∀ a b c e f g h i : Bool,
      statusWord a b c e f g h i &&& statusOverrun = 0 ↔ g = false := by decide
  rw [UartRegs.status, hbit]

theorem status_frame (d : UartRegs) : d.status &&& statusFrame = 0 ↔ d.frame = false := by
  have hbit : ∀ a b c e f g h i : Bool,
      statusWord a b c e f g h i &&& statusFrame = 0 ↔ h = false := by decide
  rw [UartRegs.status, hbit]

/-- `ulite_receive` has nothing to do. -/
theorem status_quiet (d : UartRegs) :
    d.status &&& (statusRxvalid ||| statusOverrun ||| statusFrame) = 0 ↔
      d.rx = [] ∧ d.overrun = false ∧ d.frame = false := by
  have hbit : ∀ a b c e f g h i : Bool,
      statusWord a b c e f g h i &&& (statusRxvalid ||| statusOverrun ||| statusFrame) = 0 ↔
        a = false ∧ g = false ∧ h = false := by decide
  rw [UartRegs.status, hbit]
  simp

end Device

section Runs

/-- A device that does nothing by itself, and kernel functions that succeed. -/
def calm (_ : UartRegs) (_ : Port) : Outcome := ⟨0, 0, []⟩

/-- A port with an empty buffer. -/
def freshPort : Sys where
  mem :=
    { xmit := ⟨fun _ => 0, 0, 0⟩
      xChar := 0
      icount := ⟨0, 0, 0, 0, 0⟩
      readStatusMask := 0
      ignoreStatusMask := 0
      txStopped := false
      clk := true
      id := some 0
      uliteUartDriver := true
      drvdata := true
      clkPrepared := 1
      clkEnabled := 1
      irqRequested := false
      driverRegistered := true
      pmEnabled := true
      pmActive := true
      pmAutosuspend := true
      consolePort := .null
      ids := ⟨fun _ => false, true, fun _ => false⟩ }
  trace := []
  dev :=
    { rx := []
      tx := []
      ie := true
      overrun := false
      frame := false
      parity := false
      latched := false
      written := []
      dropped := []
      overruns := 0
      frames := 0 }

end Runs

end PynqPrio.Uart
