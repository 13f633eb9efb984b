import PynqPrio.DriverLayers
import Mathlib.Data.Int.Notation

/-!
# The GPIO driver

`gpio-byu.c` function by function, up to the probe. The structure of each channel is part
of the memory of the driver; so is what the driver leaves with the kernel, and the ports
are the registers and the kernel functions that can fail. A device has one or two
channels, and a call takes the channel whose structure it is given.
-/
namespace PynqPrio.Gpio
open Programs Programs.Driver

/-! Register offsets. -/
def dataOffset : ℕ := 0x0
def triOffset : ℕ := 0x4
def gierOffset : ℕ := 0x11c
def ipisrOffset : ℕ := 0x120
def ipierOffset : ℕ := 0x128
def channelOffset : ℕ := 0x8

def gierIe : BitVec 32 := 0x80000000

/-- The macro `BIT`, as it is stored in an `u32`. -/
def bit (n : ℕ) : BitVec 32 := 1#32 <<< n

def u32 (x : ℤ) : ℕ := (x % 4294967296).toNat

/-- A legacy interrupt domain, which maps `size` numbers from 0 on. -/
structure IrqDomain where
  size : ℕ
  firstIrq : ℤ
  deriving DecidableEq

/-- `irq_find_mapping` answers 0 for a number outside of the domain. -/
def irqFindMapping (domain : Option IrqDomain) (hwirq : ℕ) : ℤ :=
  match domain with
  | none => 0
  | some d => if hwirq < d.size then d.firstIrq + hwirq else 0

/-- The structures of the two channels, of which the probe allocates one or two. -/
inductive Channel where
  | first | second
  deriving DecidableEq

/-- `struct xgpio_instance`, with the number of pins of its `gpio_chip`; `clk` says whether
the clock pointer is not `NULL`. -/
structure XgpioInstance where
  gpioState : BitVec 32
  gpioDir : BitVec 32
  offset : ℕ
  irqBase : ℤ
  irqEnable : BitVec 32
  noInit : Bool
  ngpio : ℕ
  irqDomain : Option IrqDomain
  clk : Bool
  deriving DecidableEq

/-- A structure from `devm_kzalloc`. -/
def XgpioInstance.zero : XgpioInstance where
  gpioState := 0
  gpioDir := 0
  offset := 0
  irqBase := 0
  irqEnable := 0
  noInit := false
  ngpio := 0
  irqDomain := none
  clk := false

namespace XgpioInstance

@[simps] def withState (chip : XgpioInstance) (v : BitVec 32) : XgpioInstance :=
  { chip with gpioState := v }

@[simps] def withDir (chip : XgpioInstance) (v : BitVec 32) : XgpioInstance :=
  { chip with gpioDir := v }

@[simps] def withIrq (chip : XgpioInstance) (base : ℤ) : XgpioInstance :=
  { chip with irqBase := base }

@[simps] def withDomain (chip : XgpioInstance) (domain : IrqDomain) : XgpioInstance :=
  { chip with irqDomain := some domain }

@[simps] def withIrqEnable (chip : XgpioInstance) (v : BitVec 32) : XgpioInstance :=
  { chip with irqEnable := v }

/-- `chip->offset / XGPIO_CHANNEL_OFFSET + 1`. -/
def channelBit (chip : XgpioInstance) : BitVec 32 :=
  BitVec.ofNat 32 (chip.offset / channelOffset + 1)

@[simp] theorem withIrqEnable_channelBit (chip : XgpioInstance) (v : BitVec 32) :
    (chip.withIrqEnable v).channelBit = chip.channelBit := rfl

@[simp] theorem withDir_channelBit (chip : XgpioInstance) (v : BitVec 32) :
    (chip.withDir v).channelBit = chip.channelBit := rfl

end XgpioInstance

/-- The structures of the driver, and what it has left with the kernel: the chained handler
of each interrupt with its data, the chip data of each interrupt, which chips are
registered, the counts of the clock and the state of runtime PM. `pmIdle` says that the
device may be suspended. -/
structure GpioMem where
  chip : Channel → XgpioInstance
  drvdata : Option Channel
  handlerData : ℕ → Option Channel
  chainedHandler : ℕ → Bool
  chipData : ℤ → Option Channel
  registered : Channel → Bool
  clkPrepared : ℤ
  clkEnabled : ℤ
  pmEnabled : Bool
  pmActive : Bool
  pmUsage : ℤ
  pmIdle : Bool

namespace GpioMem

def update (d : GpioMem) (c : Channel) (f : XgpioInstance → XgpioInstance) : GpioMem :=
  { d with chip := fun c' => if c' = c then f (d.chip c') else d.chip c' }

@[simp] theorem update_self (d : GpioMem) (c : Channel) (f : XgpioInstance → XgpioInstance) :
    (d.update c f).chip c = f (d.chip c) := if_pos rfl

theorem update_of_ne (d : GpioMem) {c c' : Channel} (f : XgpioInstance → XgpioInstance)
    (h : c' ≠ c) : (d.update c f).chip c' = d.chip c' := if_neg h

theorem update_id (d : GpioMem) (c : Channel) : d.update c id = d := by
  simp only [GpioMem.update, id, ite_self]

theorem update_update (d : GpioMem) (c : Channel) (f g : XgpioInstance → XgpioInstance) :
    (d.update c f).update c g = d.update c fun chip => g (f chip) := by
  simp only [GpioMem.update, GpioMem.mk.injEq, and_true]
  funext c'
  by_cases hc : c' = c
  · simp only [if_pos hc]
  · simp only [if_neg hc]

/-- Only the structure that is changed matters. -/
theorem update_congr (d : GpioMem) (c : Channel) {f g : XgpioInstance → XgpioInstance}
    (h : f (d.chip c) = g (d.chip c)) : d.update c f = d.update c g := by
  simp only [GpioMem.update, GpioMem.mk.injEq, and_true]
  funext c'
  by_cases hc : c' = c
  · rw [if_pos hc, if_pos hc, hc, h]
  · rw [if_neg hc, if_neg hc]

end GpioMem

/-- `generic_handle_irq`, which runs the handlers of an interrupt. -/
inductive Event where
  | handleIrq (irq : ℤ)
  deriving DecidableEq

/-- The registers, and the kernel functions whose answer is not determined, with the channel
that they are called for. -/
inductive Port where
  | readreg (addr : ℕ)
  | writereg (addr : ℕ) (value : BitVec 32)
  | kzalloc (c : Channel)
  | clkGet
  | clkPrepareEnable
  | clkEnable
  | ioremap (c : Channel)
  | gpiochipAdd (c : Channel)
  | irqAllocDescs (c : Channel) (cnt : ℕ)
  deriving DecidableEq

abbrev Port.Res : Port → Type
  | .readreg _ => BitVec 32
  | .writereg .. => Unit
  | .kzalloc _ => Bool
  | .clkGet => Except ℤ Unit
  | .clkPrepareEnable | .clkEnable | .ioremap _ | .gpiochipAdd _ | .irqAllocDescs .. => ℤ

abbrev Xgpio := Driver GpioMem Event Port.Res

abbrev Sys (δ : Type) := Config GpioMem Event δ

def xgpioReadreg (addr : ℕ) : Xgpio (BitVec 32) := port (P := Port) (.readreg addr)
def xgpioWritereg (addr : ℕ) (value : BitVec 32) : Xgpio Unit :=
  port (P := Port) (.writereg addr value)

def instanceOf (c : Channel) : Xgpio XgpioInstance := do
  let d ← get
  return d.chip c

/-- A shadow register with the bit of a pin set to a value. -/
def setPin (shadow : BitVec 32) (gpio : ℕ) (val : ℤ) : BitVec 32 :=
  if val ≠ 0 then shadow ||| bit gpio else shadow &&& ~~~bit gpio

/-- The functions take the lock of the channel for their whole body. -/
def xgpioSet (c : Channel) (gpio : ℕ) (val : ℤ) : Xgpio Unit := do
  modify (·.update c fun chip => chip.withState (setPin chip.gpioState gpio val))
  let chip ← instanceOf c
  xgpioWritereg (chip.offset + dataOffset) chip.gpioState

/-- Words of type `unsigned long`, of `w` bits; a pointer is the number of a word. -/
abbrev Words (w : ℕ) := ℕ → BitVec w

def testBit {w : ℕ} (nr addr : ℕ) (words : Words w) : Bool :=
  (words (addr + nr / w)).getLsbD (nr % w)

def testAndClearBit {w : ℕ} (nr addr : ℕ) (words : Words w) : Bool × Words w :=
  (testBit nr addr words, Function.update words (addr + nr / w)
    (words (addr + nr / w) &&& ~~~(1#w <<< (nr % w))))

/-- An iteration of the loop of `xgpio_set_multiple`, which takes the words of its caller along. -/
def setMultipleBody {w : ℕ} (c : Channel) (mask bits i : ℕ) (words : Words w) :
    Xgpio ((ℕ × Words w) ⊕ Words w) := do
  let chip ← instanceOf c
  if i < chip.ngpio then
    if words mask = 0 then return .inr words
    let (masked, words) := testAndClearBit i mask words
    if masked = true then
      modify (·.update c fun chip =>
        chip.withState (setPin chip.gpioState i (testBit i bits words).toInt))
    return .inl (i + 1, words)
  else return .inr words

/-- `mask` and `bits` point to words of the caller; answers the words as it leaves them. -/
def xgpioSetMultiple {w : ℕ} (c : Channel) (mask bits : ℕ) (words : Words w) : Xgpio (Words w) := do
  let words ← Prog.iterate (fun x : ℕ × Words w => setMultipleBody c mask bits x.1 x.2) (0, words)
  let chip ← instanceOf c
  xgpioWritereg (chip.offset + dataOffset) chip.gpioState
  return words

def xgpioDirIn (c : Channel) (gpio : ℕ) : Xgpio Unit := do
  modify (·.update c fun chip => chip.withDir (chip.gpioDir ||| bit gpio))
  let chip ← instanceOf c
  xgpioWritereg (chip.offset + triOffset) chip.gpioDir

def xgpioDirOut (c : Channel) (gpio : ℕ) (val : ℤ) : Xgpio Unit := do
  modify (·.update c fun chip => chip.withState (setPin chip.gpioState gpio val))
  let chip ← instanceOf c
  xgpioWritereg (chip.offset + dataOffset) chip.gpioState
  modify (·.update c fun chip => chip.withDir (chip.gpioDir &&& ~~~bit gpio))
  let chip ← instanceOf c
  xgpioWritereg (chip.offset + triOffset) chip.gpioDir

def xgpioSaveRegs (c : Channel) : Xgpio Unit := do
  let chip ← instanceOf c
  if chip.noInit = true then
    let state ← xgpioReadreg dataOffset
    modify fun d => d.update c (·.withState state)
    let dir ← xgpioReadreg triOffset
    modify fun d => d.update c (·.withDir dir)
  else
    xgpioWritereg (chip.offset + dataOffset) chip.gpioState
    xgpioWritereg (chip.offset + triOffset) chip.gpioDir

def xgpioIrqMask (c : Channel) (irq : ℤ) : Xgpio Unit := do
  let chip ← instanceOf c
  let offset := u32 (irq - chip.irqBase)
  modify (·.update c fun chip => chip.withIrqEnable (chip.irqEnable &&& ~~~bit offset))
  let chip ← instanceOf c
  if chip.irqEnable = 0 then
    let temp ← xgpioReadreg ipierOffset
    let temp := temp &&& chip.channelBit
    xgpioWritereg ipierOffset temp
    let temp ← xgpioReadreg ipierOffset
    if temp = 0 then xgpioWritereg gierOffset (~~~gierIe)

def xgpioIrqUnmask (c : Channel) (irq : ℤ) : Xgpio Unit := do
  let chip ← instanceOf c
  let offset := u32 (irq - chip.irqBase)
  xgpioDirIn c offset
  modify (·.update c fun chip => chip.withIrqEnable (chip.irqEnable ||| bit offset))
  let chip ← instanceOf c
  if chip.irqEnable ≠ 0 then
    let temp ← xgpioReadreg ipierOffset
    let temp := temp ||| chip.channelBit
    xgpioWritereg ipierOffset temp
    xgpioWritereg gierOffset gierIe

/-! Interrupt types. -/
def irqTypeEdgeRising : BitVec 32 := 0x1
def irqTypeEdgeBoth : BitVec 32 := 0x3

def einval : ℤ := 22

def xgpioSetIrqType (type : BitVec 32) : ℤ :=
  if type &&& irqTypeEdgeRising ≠ 0 then 0 else -einval

def xgpioToIrq (chip : XgpioInstance) (offset : ℕ) : ℤ := irqFindMapping chip.irqDomain offset

/-- The positions of the set bits below `size`, in ascending order. -/
def setBits (val : BitVec 32) (size : ℕ) : List ℕ := (List.range size).filter (val.getLsbD ·)

/-- The first part of `xgpio_irqhandler` reads the pins. -/
def irqhandlerRead (c : Channel) : Xgpio (BitVec 32) := do
  let chip ← instanceOf c
  let val ← xgpioReadreg chip.offset
  return val &&& chip.irqEnable

/-- The loop of `xgpio_irqhandler` handles the interrupts of the pins that are high. -/
def irqhandlerDispatch (c : Channel) (val : BitVec 32) : Xgpio Unit := do
  let chip ← instanceOf c
  (setBits val chip.ngpio).forM fun offset => note (.handleIrq (chip.irqBase + offset))

/-- The end of `xgpio_irqhandler` acknowledges the interrupt of the channel. -/
def irqhandlerAck (c : Channel) : Xgpio Unit := do
  let chip ← instanceOf c
  xgpioWritereg ipisrOffset chip.channelBit

/-- The handler of the interrupt `irq`; the data of the handler is the structure of a channel. -/
def xgpioIrqhandler (irq : ℕ) : Xgpio Unit := do
  let d ← get
  match d.handlerData irq with
  -- the probe sets the data before it installs the handler
  | none => return ()
  | some c =>
    let val ← irqhandlerRead c
    irqhandlerDispatch c val
    irqhandlerAck c

section Device

structure GpioRegs where
  pins : Channel → BitVec 32
  data : Channel → BitVec 32
  tri : Channel → BitVec 32
  gier : BitVec 32
  ipisr : BitVec 32
  ipier : BitVec 32

namespace GpioRegs

/-- `DATA` reads the pins. -/
def read (s : GpioRegs) (addr : ℕ) : BitVec 32 :=
  if addr = dataOffset then s.pins .first
  else if addr = triOffset then s.tri .first
  else if addr = channelOffset + dataOffset then s.pins .second
  else if addr = channelOffset + triOffset then s.tri .second
  else if addr = gierOffset then s.gier
  else if addr = ipisrOffset then s.ipisr
  else if addr = ipierOffset then s.ipier
  else 0

/-- A write of 1 to a bit of `IPISR` toggles it. -/
def write (s : GpioRegs) (addr : ℕ) (value : BitVec 32) : GpioRegs :=
  if addr = dataOffset then { s with data := Function.update s.data .first value }
  else if addr = triOffset then { s with tri := Function.update s.tri .first value }
  else if addr = channelOffset + dataOffset then
    { s with data := Function.update s.data .second value }
  else if addr = channelOffset + triOffset then
    { s with tri := Function.update s.tri .second value }
  else if addr = gierOffset then { s with gier := value }
  else if addr = ipisrOffset then { s with ipisr := s.ipisr ^^^ value }
  else if addr = ipierOffset then { s with ipier := value }
  else s

@[simp] theorem read_ipier (s : GpioRegs) : s.read ipierOffset = s.ipier := rfl

@[simp] theorem write_ipier (s : GpioRegs) (v : BitVec 32) :
    s.write ipierOffset v = { s with ipier := v } := rfl

@[simp] theorem write_gier (s : GpioRegs) (v : BitVec 32) :
    s.write gierOffset v = { s with gier := v } := rfl

@[simp] theorem write_ipisr (s : GpioRegs) (v : BitVec 32) :
    s.write ipisrOffset v = { s with ipisr := s.ipisr ^^^ v } := rfl

end GpioRegs

/-- The answers of the kernel functions; the error codes of `devm_clk_get` are negative. -/
structure Kernel where
  alloc : Bool
  clkError : Option ℕ
  status : ℤ
  deriving Inhabited

def GpioRegs.answer (s : GpioRegs) (k : Kernel) : (p : Port) → Option (Port.Res p × GpioRegs)
  | .readreg addr => some (s.read addr, s)
  | .writereg addr value => some ((), s.write addr value)
  | .kzalloc _ => some (k.alloc, s)
  | .clkGet => some (match k.clkError with
      | none => .ok ()
      | some e => .error (-(e : ℤ) - 1), s)
  | .clkPrepareEnable | .clkEnable | .ioremap _ | .gpiochipAdd _ | .irqAllocDescs .. =>
    some (k.status, s)

/-- The core as the device of the driver. -/
def gpioCore : Machine Port Port.Res GpioRegs := ofAnswer GpioRegs.answer

end Device

end PynqPrio.Gpio
