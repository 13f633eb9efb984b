import PynqPrio.DriverMemory
import Mathlib.Data.Int.Notation

/-!
# The I2C driver

`i2c-byu.c` function by function. A pointer into the caller's message array is an index,
`NULL` is `none`; the unsigned fields of `struct xiic_i2c` are naturals below `2 ^ 32`
that wrap explicitly. The registers are reached through the five accessors, which are
the ports of the driver; the byte lanes below them are a separate layer.
-/
namespace PynqPrio.Iic
open Programs Programs.Driver

def u8 (x : ℤ) : ℕ := (x % 256).toNat

def u32 (x : ℤ) : ℕ := (x % 4294967296).toNat

def s32 (x : ℕ) : ℤ := if x < 2147483648 then x else (x : ℤ) - 4294967296

inductive XilinxI2cState where
  | done | error | start
  deriving DecidableEq

inductive XiicEndian where
  | little | big
  deriving DecidableEq

inductive Reg where
  | cr | sr | dtr | drr | tfo | rfo | rfd | dgier | iisr | iier | resetr
  deriving DecidableEq

namespace Reg

def offset : Reg → ℕ
  | .cr => 0x100 | .sr => 0x104 | .dtr => 0x108 | .drr => 0x10C | .tfo => 0x114
  | .rfo => 0x118 | .rfd => 0x120 | .dgier => 0x1C | .iisr => 0x20 | .iier => 0x28
  | .resetr => 0x40

end Reg

/-! Control and status register masks. -/
def crEnableDeviceMask : BitVec 8 := 0x01
def crTxFifoResetMask : BitVec 8 := 0x02
def srBusBusyMask : BitVec 8 := 0x04
def srRxFifoEmptyMask : BitVec 8 := 0x40
def srTxFifoEmptyMask : BitVec 8 := 0x80

/-! Interrupt masks. -/
def intrArbLostMask : BitVec 32 := 0x01
def intrTxErrorMask : BitVec 32 := 0x02
def intrTxEmptyMask : BitVec 32 := 0x04
def intrRxFullMask : BitVec 32 := 0x08
def intrBnbMask : BitVec 32 := 0x10
def intrTxHalfMask : BitVec 32 := 0x80

def rxFifoDepth : ℕ := 16
def txFifoDepth : ℕ := 16
def readOperation : BitVec 16 := 1
def writeOperation : BitVec 16 := 0
def txDynStartMask : BitVec 16 := 0x0100
def txDynStopMask : BitVec 16 := 0x0200
def resetMask : BitVec 32 := 0xA
def gintrEnableMask : BitVec 32 := 0x80000000

/-! Message flags of the I2C core. -/
def i2cMRd : BitVec 16 := 0x0001
def i2cMNostart : BitVec 16 := 0x4000

/-- `struct i2c_msg`, whose buffer is kept in `XiicI2c.bufs`. -/
structure I2cMsg where
  addr : BitVec 16
  flags : BitVec 16
  len : BitVec 16
  deriving DecidableEq, Inhabited

namespace I2cMsg

abbrev IsRead (m : I2cMsg) : Prop := m.flags &&& i2cMRd ≠ 0

/-- The message continues the one before it without an address word. -/
abbrev NoStart (m : I2cMsg) : Prop := m.flags &&& i2cMNostart ≠ 0

end I2cMsg

/-- The fields of `struct xiic_i2c` that change after the probe, with the message array
of the transfer and its buffers, which the structure points into. -/
structure XiicI2c where
  txMsg : Option ℕ
  txPos : ℕ
  nmsgs : ℕ
  state : XilinxI2cState
  rxMsg : Option ℕ
  rxPos : ℤ
  endianness : XiicEndian
  msgs : List I2cMsg
  bufs : ℕ → ℕ → BitVec 8

/-- The structure as the probe leaves it on a big-endian device. -/
def probed : XiicI2c where
  txMsg := none
  txPos := 0
  nmsgs := 0
  state := .done
  rxMsg := none
  rxPos := 0
  endianness := .big
  msgs := []
  bufs := fun _ _ => 0

/-- What the trace records: the words written to the TX FIFO, every access to a message
buffer with its bounds, every evaluation of the two space macros, and the points that
the driver's debug output marks. -/
inductive Event where
  | dtr (word : BitVec 16)
  | load (msg pos : ℕ)
  | store (msg : ℕ) (pos : ℤ) (byte : BitVec 8)
  | txSpace (len pos : ℕ)
  | rxSpace (len : ℕ) (pos : ℤ)
  | pend (pend : BitVec 32)
  | startXfer (txMsg : ℕ) (rxMsg : Option ℕ) (fifoSpace : ℤ)
  | reinit
  | wakeup (code : XilinxI2cState)
  | nullPointer
  deriving DecidableEq

inductive Port where
  | getreg8 (reg : Reg)
  | getreg32 (reg : Reg)
  | setreg8 (reg : Reg) (value : BitVec 8)
  | setreg16 (reg : Reg) (value : BitVec 16)
  | setreg32 (reg : Reg) (value : BitVec 32)

abbrev Port.Res : Port → Type
  | .getreg8 _ => BitVec 8
  | .getreg32 _ => BitVec 32
  | .setreg8 .. | .setreg16 .. | .setreg32 .. => Unit

abbrev Xiic := Driver XiicI2c Event Port.Res

abbrev Sys (δ : Type) := Config XiicI2c Event δ

def xiicGetreg8 (reg : Reg) : Xiic (BitVec 8) := port (P := Port) (.getreg8 reg)
def xiicGetreg32 (reg : Reg) : Xiic (BitVec 32) := port (P := Port) (.getreg32 reg)
def xiicSetreg8 (reg : Reg) (value : BitVec 8) : Xiic Unit := port (P := Port) (.setreg8 reg value)
def xiicSetreg32 (reg : Reg) (value : BitVec 32) : Xiic Unit :=
  port (P := Port) (.setreg32 reg value)

def portSetreg16 (reg : Reg) (value : BitVec 16) : Xiic Unit :=
  port (P := Port) (.setreg16 reg value)

/-- The 16-bit accessor is used for the data register only. -/
def xiicSetreg16 (reg : Reg) (value : BitVec 16) : Xiic Unit := do
  portSetreg16 reg value
  note (.dtr value)

def deref (p : Option ℕ) : Xiic I2cMsg := do
  let d ← get
  match p.bind (d.msgs[·]?) with
  | some m => return m
  | none =>
    note .nullPointer
    return default

/-- The macro `xiic_tx_space`, an `unsigned int`. -/
def xiicTxSpace : Xiic ℕ := do
  let d ← get
  let msg ← deref d.txMsg
  note (.txSpace msg.len.toNat d.txPos)
  return u32 (msg.len.toNat - d.txPos)

/-- The macro `xiic_rx_space`, an `int`. -/
def xiicRxSpace : Xiic ℤ := do
  let d ← get
  let msg ← deref d.rxMsg
  note (.rxSpace msg.len.toNat d.rxPos)
  return msg.len.toNat - d.rxPos

def xiicIrqDis (mask : BitVec 32) : Xiic Unit := do
  let ier ← xiicGetreg32 .iier
  xiicSetreg32 .iier (ier &&& ~~~mask)

def xiicIrqEn (mask : BitVec 32) : Xiic Unit := do
  let ier ← xiicGetreg32 .iier
  xiicSetreg32 .iier (ier ||| mask)

def xiicIrqClr (mask : BitVec 32) : Xiic Unit := do
  let isr ← xiicGetreg32 .iisr
  xiicSetreg32 .iisr (isr &&& mask)

def xiicIrqClrEn (mask : BitVec 32) : Xiic Unit := do
  xiicIrqClr mask
  xiicIrqEn mask

def xiicClearRxFifo : Xiic Unit :=
  Prog.iterate (fun () => do
    let sr ← xiicGetreg8 .sr
    if sr &&& srRxFifoEmptyMask ≠ 0 then return .inr ()
    let _ ← xiicGetreg8 .drr
    return .inl ()) ()

def xiicReinit : Xiic Unit := do
  note .reinit
  xiicSetreg32 .resetr resetMask
  xiicSetreg8 .rfd (BitVec.ofNat 8 (rxFifoDepth - 1))
  xiicSetreg8 .cr crTxFifoResetMask
  xiicSetreg8 .cr crEnableDeviceMask
  xiicClearRxFifo
  xiicSetreg32 .dgier gintrEnableMask
  xiicIrqClrEn intrArbLostMask

/-- `i2c->rx_msg->buf[i2c->rx_pos++] = xiic_getreg8(i2c, XIIC_DRR_REG_OFFSET)`. -/
def storeRxByte : Xiic Unit := do
  let byte ← xiicGetreg8 .drr
  let d ← get
  match d.rxMsg with
  | none => note .nullPointer
  | some i =>
    note (.store i d.rxPos byte)
    set { d with
      bufs := fun j p => if j = i ∧ (p : ℤ) = d.rxPos then byte else d.bufs j p
      rxPos := d.rxPos + 1 }

def xiicReadRx : Xiic Unit := do
  let rfo ← xiicGetreg8 .rfo
  let bytesInFifo : ℕ := u8 (rfo.toNat + 1)
  let space ← xiicRxSpace
  let bytesInFifo := if (bytesInFifo : ℤ) > space then u8 space else bytesInFifo
  Prog.iterate (fun i : ℕ => do
    if i < bytesInFifo then
      storeRxByte
      return .inl (i + 1)
    return .inr ()) 0
  let space ← xiicRxSpace
  xiicSetreg8 .rfd
    (if space > rxFifoDepth then BitVec.ofNat 8 (rxFifoDepth - 1) else BitVec.ofInt 8 (space - 1))

/-- An `int`; negative when `TFO` reads more than the depth of the FIFO. -/
def xiicTxFifoSpace : Xiic ℤ := do
  let tfo ← xiicGetreg8 .tfo
  return (txFifoDepth : ℤ) - tfo.toNat - 1

/-- `i2c->tx_msg->buf[i2c->tx_pos++]`. -/
def loadTxByte : Xiic (BitVec 8) := do
  let d ← get
  match d.txMsg with
  | none =>
    note .nullPointer
    return 0
  | some i =>
    note (.load i d.txPos)
    set { d with txPos := u32 (d.txPos + 1) }
    return d.bufs i d.txPos

/-- One iteration of the loop of `xiic_fill_tx_fifo`. -/
def fillTxWord : Xiic Unit := do
  let byte ← loadTxByte
  let data := byte.setWidth 16
  let space ← xiicTxSpace
  let d ← get
  let data := if space = 0 ∧ d.nmsgs = 1 then data ||| txDynStopMask else data
  xiicSetreg16 .dtr data

def xiicFillTxFifo : Xiic Unit := do
  let fifoSpace ← xiicTxFifoSpace
  let fifoSpace := u8 fifoSpace
  let space ← xiicTxSpace
  let len := s32 space
  let len := if len > fifoSpace then (fifoSpace : ℤ) else len
  -- `while (len--)`: a negative length would not stop the loop
  Prog.iterate (fun len : ℤ => do
    if len = 0 then return .inr ()
    fillTxWord
    return .inl (len - 1)) len

def xiicWakeup (code : XilinxI2cState) : Xiic Unit := do
  modify fun d => { d with txMsg := none, rxMsg := none, nmsgs := 0, state := code }
  note (.wakeup code)

def xiicStartRecv : Xiic Unit := do
  modify fun d => { d with rxMsg := d.txMsg }
  let d ← get
  let msg ← deref d.rxMsg
  xiicIrqClrEn (intrRxFullMask ||| intrTxErrorMask)
  let rxWatermark := u8 msg.len.toNat
  let rxWatermark := if rxWatermark > rxFifoDepth then rxFifoDepth else rxWatermark
  xiicSetreg8 .rfd (BitVec.ofInt 8 ((rxWatermark : ℤ) - 1))
  if ¬msg.NoStart then
    xiicSetreg16 .dtr ((msg.addr <<< 1) ||| readOperation ||| txDynStartMask)
  xiicIrqClrEn intrBnbMask
  let d ← get
  xiicSetreg16 .dtr (msg.len ||| if d.nmsgs = 1 then txDynStopMask else 0)
  if d.nmsgs = 1 then xiicIrqClrEn intrBnbMask
  modify fun d => { d with txPos := msg.len.toNat }

def xiicStartSend : Xiic Unit := do
  let d ← get
  let msg ← deref d.txMsg
  xiicIrqClr intrTxErrorMask
  if ¬msg.NoStart then
    let data := ((msg.addr <<< 1) &&& 0xfe) ||| writeOperation ||| txDynStartMask
    let data := if d.nmsgs = 1 ∧ msg.len = 0 then data ||| txDynStopMask else data
    xiicSetreg16 .dtr data
  xiicFillTxFifo
  xiicIrqClrEn (intrTxEmptyMask ||| intrTxErrorMask ||| intrBnbMask)

/-- `i2c->nmsgs--; i2c->tx_msg++`. -/
def nextMsg : Xiic Unit :=
  modify fun d => { d with nmsgs := u32 (d.nmsgs - 1), txMsg := d.txMsg.map (· + 1) }

/-- Start the current message inside the loop of `__xiic_start_xfer`: `inr true` returns
from the function, `inr false` leaves the loop. -/
def startCurrent : Xiic ((Bool × ℤ) ⊕ Bool) := do
  let d ← get
  let msg ← deref d.txMsg
  if msg.IsRead then
    xiicStartRecv
    return .inr true
  else
    xiicStartSend
    let space ← xiicTxSpace
    if space ≠ 0 then return .inr false
    let fifoSpace ← xiicTxFifoSpace
    return .inl (false, fifoSpace)

/-- One iteration of the loop of `__xiic_start_xfer`. -/
def startXferBody (first : Bool) (fifoSpace : ℤ) : Xiic ((Bool × ℤ) ⊕ Bool) := do
  let d ← get
  if fifoSpace ≥ 2 ∧ (first = true ∨ d.nmsgs > 1) then
    if first = false then
      nextMsg
      modify fun d => { d with txPos := 0 }
    startCurrent
  else return .inr false

/-- `__xiic_start_xfer`, which does not take the mutex itself. -/
def xiicStartXferUnlocked : Xiic Unit := do
  let fifoSpace ← xiicTxFifoSpace
  let d ← get
  match d.txMsg with
  | none => return ()
  | some i =>
    note (.startXfer i d.rxMsg fifoSpace)
    modify fun d => { d with rxPos := 0, txPos := 0, state := .start }
    let returned ← Prog.iterate (fun s : Bool × ℤ => startXferBody s.1 s.2) (true, fifoSpace)
    if returned = false then
      let d ← get
      -- `||` does not evaluate the space when messages remain
      let space ← if d.nmsgs > 1 then pure 1 else xiicTxSpace
      if space ≠ 0 then xiicIrqClrEn intrTxHalfMask

/-- Takes the mutex for its whole body. -/
def xiicStartXfer : Xiic Unit := do
  xiicReinit
  xiicStartXferUnlocked

/-- The first branch of `xiic_process`: lost arbitration, or a transmit error that does
not come with received data. -/
def processError (pend : BitVec 32) : Xiic Unit := do
  if pend &&& intrArbLostMask ≠ 0 ∨
      (pend &&& intrTxErrorMask ≠ 0 ∧ pend &&& intrRxFullMask = 0) then
    xiicReinit
    let d ← get
    if d.rxMsg.isSome then xiicWakeup .error
    let d ← get
    if d.txMsg.isSome then xiicWakeup .error

/-- The RX_FULL branch; answers the new `clr` and whether it ends in `goto out`. -/
def processRx (isr pend clr : BitVec 32) : Xiic (BitVec 32 × Bool) := do
  if pend &&& intrRxFullMask = 0 then return (clr, false)
  let clr := clr ||| intrRxFullMask
  let d ← get
  if d.rxMsg.isNone then
    xiicClearRxFifo
    return (clr, true)
  xiicReadRx
  let space ← xiicRxSpace
  if space ≠ 0 then return (clr, false)
  modify fun d => { d with rxMsg := none }
  let d ← get
  if d.nmsgs > 1 then
    nextMsg
    xiicStartXferUnlocked
  return (clr ||| (isr &&& intrTxErrorMask), false)

/-- The bus-not-busy branch, skipped when an earlier branch went `out`. -/
def processBnb (out : Bool) (pend clr : BitVec 32) : Xiic (BitVec 32 × Bool) := do
  if out = true ∨ pend &&& intrBnbMask = 0 then return (clr, out)
  let clr := clr ||| intrBnbMask
  xiicIrqDis intrBnbMask
  let d ← get
  if d.txMsg.isNone then return (clr, true)
  -- `&&` evaluates the space only for the last message with no read outstanding
  let space ← if d.nmsgs = 1 ∧ d.rxMsg.isNone then xiicTxSpace else pure 1
  xiicWakeup (if space = 0 then .done else .error)
  return (clr, false)

/-- The end of the TX branch, after the FIFO has been filled. -/
def processTxDone : Xiic Unit := do
  let space ← xiicTxSpace
  if space = 0 then
    let fifoSpace ← xiicTxFifoSpace
    let d ← get
    if fifoSpace ≥ 2 then
      if d.nmsgs > 1 then
        nextMsg
        xiicStartXferUnlocked
      else xiicIrqDis intrTxHalfMask
    else if d.nmsgs = 1 then xiicIrqDis intrTxHalfMask

/-- The TX_EMPTY and TX_HALF branch, skipped when an earlier branch went `out`. -/
def processTx (out : Bool) (pend clr : BitVec 32) : Xiic (BitVec 32) := do
  if out = true ∨ pend &&& (intrTxEmptyMask ||| intrTxHalfMask) = 0 then return clr
  let clr := clr ||| (pend &&& (intrTxEmptyMask ||| intrTxHalfMask))
  let d ← get
  if d.txMsg.isNone then return clr
  xiicFillTxFifo
  processTxDone
  return clr

/-- The interrupt thread, with the mutex taken for its whole body. -/
def xiicProcess : Xiic Unit := do
  let isr ← xiicGetreg32 .iisr
  let ier ← xiicGetreg32 .iier
  let pend := isr &&& ier
  note (.pend pend)
  processError pend
  let (clr, out) ← processRx isr pend 0
  let (clr, out) ← processBnb out pend clr
  let clr ← processTx out pend clr
  xiicSetreg32 .iisr clr

/-- The hard interrupt handler wakes the thread when an enabled interrupt is pending. -/
def xiicIsr : Xiic Bool := do
  let isr ← xiicGetreg32 .iisr
  let ier ← xiicGetreg32 .iier
  return isr &&& ier ≠ 0

def xiicBusBusy : Xiic Bool := do
  let sr ← xiicGetreg8 .sr
  return sr &&& srBusBusyMask ≠ 0

/-- Whether `xiic_xfer` ends in `-EBUSY`; the bus is given three more tries. -/
def xiicBusy : Xiic Bool := do
  let d ← get
  if d.txMsg.isSome then return true
  let err ← xiicBusBusy
  Prog.iterate (fun s : Bool × ℕ => do
    if s.1 = true ∧ s.2 ≠ 0 then
      let err ← xiicBusBusy
      return .inl (err, s.2 - 1)
    return .inr s.1) (err, 3)

/-- The start of a transfer in `xiic_xfer`, outside the mutex. -/
def assignTransfer (msgs : List I2cMsg) (bufs : ℕ → ℕ → BitVec 8) : Xiic Unit :=
  modify fun d => { d with msgs := msgs, bufs := bufs, txMsg := some 0, nmsgs := msgs.length }

/-- The start of a transfer when nothing runs between its two steps. -/
def startTransfer (msgs : List I2cMsg) (bufs : ℕ → ℕ → BitVec 8) : Xiic Unit := do
  assignTransfer msgs bufs
  xiicStartXfer

def eio : ℤ := 5

/-- What `xiic_xfer` returns when the state ends its wait. -/
def xferResult (d : XiicI2c) (num : ℕ) : Option ℤ :=
  if d.state = .error ∨ d.state = .done then
    some (if d.state = .done then num else -eio)
  else none

/-- The timeout branch of `xiic_xfer`. -/
def timeoutCleanup : Xiic Unit :=
  modify fun d => { d with txMsg := none, rxMsg := none, nmsgs := 0 }

end PynqPrio.Iic
