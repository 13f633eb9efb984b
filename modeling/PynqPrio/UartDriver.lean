import PynqPrio.DriverLayers
import PynqPrio.CircularBuffers
import Mathlib.Data.Int.Notation

/-!
# The UART driver

`byu_uartlite.c` function by function: the operations of the port and the functions of
runtime PM. The console is not built in. The registers are ports of the driver, with the
byte order that the probe has found, and so are the kernel functions that can fail.
-/
namespace PynqPrio.Uart
open Programs Programs.Driver

/-! Register offsets. -/
def uliteRx : ℕ := 0x00
def uliteTx : ℕ := 0x04
def uliteStatus : ℕ := 0x08
def uliteControl : ℕ := 0x0c

/-! Bits of `STATUS`. -/
def statusRxvalid : BitVec 32 := 0x01
def statusRxfull : BitVec 32 := 0x02
def statusTxempty : BitVec 32 := 0x04
def statusTxfull : BitVec 32 := 0x08
def statusIe : BitVec 32 := 0x10
def statusOverrun : BitVec 32 := 0x20
def statusFrame : BitVec 32 := 0x40
def statusParity : BitVec 32 := 0x80

/-! Bits of `CONTROL`. -/
def controlRstTx : BitVec 32 := 0x01
def controlRstRx : BitVec 32 := 0x02
def controlIe : BitVec 32 := 0x10

/-! Constants of the serial core. -/
def uartXmitSize : ℕ := 4096
def wakeupChars : ℕ := 256
def tiocserTemt : ℕ := 1

structure Icount where
  rx : BitVec 32
  tx : BitVec 32
  frame : BitVec 32
  overrun : BitVec 32
  parity : BitVec 32
  deriving DecidableEq

/-- The bitmaps of the identifiers, which all devices share. -/
structure IdMaps where
  aliasBitmap : ℕ → Bool
  aliasBitmapInitialized : Bool
  bitmap : ℕ → Bool

inductive ConsolePort where
  | null | thisPort | otherPort
  deriving DecidableEq

/-- `struct uart_port` with the state of its tty, `struct uartlite_data`, and what the driver
has left with the kernel. `clk`, `uliteUartDriver` and `drvdata` say whether a pointer is not
`NULL`; `id` is `none` until it is assigned. -/
structure UartMem where
  xmit : Circular (BitVec 8)
  xChar : BitVec 8
  icount : Icount
  readStatusMask : BitVec 32
  ignoreStatusMask : BitVec 32
  txStopped : Bool
  clk : Bool
  id : Option ℤ
  uliteUartDriver : Bool
  drvdata : Bool
  clkPrepared : ℤ
  clkEnabled : ℤ
  irqRequested : Bool
  driverRegistered : Bool
  pmEnabled : Bool
  pmActive : Bool
  pmAutosuspend : Bool
  consolePort : ConsolePort
  ids : IdMaps

namespace UartMem

def withIcount (d : UartMem) (f : Icount → Icount) : UartMem := { d with icount := f d.icount }

/-- `clk_enable` counts up. -/
@[simps] def enabled (d : UartMem) : UartMem := { d with clkEnabled := d.clkEnabled + 1 }

/-- `clk_disable` counts down. -/
@[simps] def disabled (d : UartMem) : UartMem := { d with clkEnabled := d.clkEnabled - 1 }

/-- The status that runtime PM keeps. -/
@[simps] def withActive (active : Bool) (d : UartMem) : UartMem := { d with pmActive := active }

end UartMem

inductive TtyFlag where
  | normal | parity | frame | overrun
  deriving DecidableEq

/-- What the driver tells the tty and the serial core, and the bits of `bitmap` that it
clears. `unregisterDriver` says whether the pointer is not `NULL`. -/
inductive Event where
  | insertFlipChar (ch : BitVec 8) (flag : TtyFlag)
  | flipBufferPush
  | writeWakeup
  | clearBit (nr : ℤ)
  | unregisterDriver (driver : Bool)
  deriving DecidableEq

/-- The registers, and the kernel functions whose answer is not determined. -/
inductive Port where
  | in32 (offset : ℕ)
  | out32 (val : BitVec 32) (offset : ℕ)
  | clkEnable
  | requestIrq
  | kzalloc
  | kasprintf
  | uartRegisterDriver
  | platformGetResource
  | platformGetIrq
  | clkGet
  | clkPrepareEnable
  | uartAddOnePort
  | consoleEnabled
  | uartRemoveOnePort

/-- A pointer is answered by whether it is not `NULL`. -/
abbrev Port.Res : Port → Type
  | .in32 _ => BitVec 32
  | .out32 .. => Unit
  | .kzalloc | .kasprintf | .platformGetResource | .consoleEnabled => Bool
  | .clkGet => Except ℤ Unit
  | .clkEnable | .requestIrq | .uartRegisterDriver | .platformGetIrq | .clkPrepareEnable
  | .uartAddOnePort | .uartRemoveOnePort => ℤ

abbrev Ulite := Driver UartMem Event Port.Res

def uartIn32 (offset : ℕ) : Ulite (BitVec 32) := port (P := Port) (.in32 offset)
def uartOut32 (val : BitVec 32) (offset : ℕ) : Ulite Unit := port (P := Port) (.out32 val offset)

/-! The circular buffer of the serial core. -/
def uartCircEmpty (xmit : Circular (BitVec 8)) : Prop := xmit.head = xmit.tail

instance (xmit : Circular (BitVec 8)) : Decidable (uartCircEmpty xmit) :=
  inferInstanceAs (Decidable (_ = _))

def uartCircCharsPending (xmit : Circular (BitVec 8)) : ℕ := xmit.count uartXmitSize

/-- The first part of `ulite_receive` takes a byte from the receiver. -/
def receiveChar (stat : BitVec 32) : Ulite (BitVec 8) :=
  if stat &&& statusRxvalid ≠ 0 then do
    modify (·.withIcount fun n => { n with rx := n.rx + 1 })
    let ch ← uartIn32 uliteRx
    onlyIf (stat &&& statusParity ≠ 0) <|
      modify (·.withIcount fun n => { n with parity := n.parity + 1 })
    return ch.setWidth 8
  else return 0

/-- The second part of `ulite_receive` counts the line errors. -/
def countErrors (stat : BitVec 32) : Ulite Unit := do
  onlyIf (stat &&& statusOverrun ≠ 0) <|
    modify (·.withIcount fun n => { n with overrun := n.overrun + 1 })
  onlyIf (stat &&& statusFrame ≠ 0) <|
    modify (·.withIcount fun n => { n with frame := n.frame + 1 })

/-- The last part of `ulite_receive` hands the byte and the errors over, as the masks say. -/
def insertChars (stat : BitVec 32) (ch : BitVec 8) : Ulite Unit := do
  let d ← get
  let stat := if stat &&& d.ignoreStatusMask &&& statusParity ≠ 0 then stat &&& ~~~statusRxvalid
    else stat
  let stat := stat &&& d.readStatusMask
  let flag := if stat &&& statusParity ≠ 0 then TtyFlag.parity else TtyFlag.normal
  let stat := stat &&& ~~~d.ignoreStatusMask
  onlyIf (stat &&& statusRxvalid ≠ 0) (note (.insertFlipChar ch flag))
  onlyIf (stat &&& statusFrame ≠ 0) (note (.insertFlipChar 0 .frame))
  onlyIf (stat &&& statusOverrun ≠ 0) (note (.insertFlipChar 0 .overrun))

/-- The answer says whether there was something to do. -/
def uliteReceive (stat : BitVec 32) : Ulite Bool :=
  if stat &&& (statusRxvalid ||| statusOverrun ||| statusFrame) = 0 then return false
  else do
    let ch ← receiveChar stat
    countErrors stat
    insertChars stat ch
    return true

/-- `UART_XMIT_SIZE` is a power of two. -/
def nextTail (tail : ℕ) : ℕ := (tail + 1) &&& (uartXmitSize - 1)

def uliteTransmit (stat : BitVec 32) : Ulite Bool := do
  let d ← get
  if stat &&& statusTxfull ≠ 0 then return false
  else if d.xChar ≠ 0 then do
    uartOut32 (d.xChar.setWidth 32) uliteTx
    modify fun d => { d with xChar := 0 }
    modify (·.withIcount fun n => { n with tx := n.tx + 1 })
    return true
  else if uartCircEmpty d.xmit ∨ d.txStopped = true then return false
  else do
    uartOut32 ((d.xmit.buf d.xmit.tail).setWidth 32) uliteTx
    modify fun d => { d with xmit := { d.xmit with tail := nextTail d.xmit.tail } }
    modify (·.withIcount fun n => { n with tx := n.tx + 1 })
    let d ← get
    onlyIf (uartCircCharsPending d.xmit < wakeupChars) (note .writeWakeup)
    return true

/-- The body of the loop of `ulite_isr`, which holds the lock of the port. -/
def isrIteration : Ulite Bool := do
  let stat ← uartIn32 uliteStatus
  let received ← uliteReceive stat
  let transmitted ← uliteTransmit stat
  return received || transmitted

inductive Irqreturn where
  | none | handled
  deriving DecidableEq

/-- The loop counts its iterations. -/
def uliteIsr : Ulite Irqreturn := do
  let n ← Prog.iterate (fun n : ℕ => do
    let busy ← isrIteration
    return if busy = true then .inl (n + 1) else .inr (n + 1)) 0
  if n > 1 then do
    note .flipBufferPush
    return .handled
  else return .none

def uliteTxEmpty : Ulite ℕ := do
  let ret ← uartIn32 uliteStatus
  return if ret &&& statusTxempty ≠ 0 then tiocserTemt else 0

def uliteStartTx : Ulite Unit := do
  let stat ← uartIn32 uliteStatus
  let _ ← uliteTransmit stat

/-- The clock functions do nothing for a `NULL` clock. -/
def clkEnable : Ulite ℤ := do
  let d ← get
  if d.clk = false then return 0
  else do
    let ret ← (port (P := Port) .clkEnable : Ulite ℤ)
    onlyIf (ret = 0) (modify UartMem.enabled)
    return ret

def clkDisable : Ulite Unit := do
  let d ← get
  onlyIf (d.clk = true) (modify UartMem.disabled)

def requestIrq : Ulite ℤ := do
  let ret ← (port (P := Port) .requestIrq : Ulite ℤ)
  onlyIf (ret = 0) (modify fun d => { d with irqRequested := true })
  return ret

def freeIrq : Ulite Unit := modify fun d => { d with irqRequested := false }

def uliteStartup : Ulite ℤ := do
  let ret ← clkEnable
  if ret ≠ 0 then return ret
  else do
    let ret ← requestIrq
    if ret ≠ 0 then return ret
    else do
      uartOut32 (controlRstRx ||| controlRstTx) uliteControl
      uartOut32 controlIe uliteControl
      return 0

def uliteShutdown : Ulite Unit := do
  uartOut32 0 uliteControl
  let _ ← uartIn32 uliteControl
  freeIrq
  clkDisable

def uliteRuntimeSuspend : Ulite ℤ := do
  clkDisable
  return 0

def uliteRuntimeResume : Ulite ℤ := do
  let _ ← clkEnable
  return 0

end PynqPrio.Uart
