import PynqPrio.GpioDriver

/-!
# What the functions of the GPIO driver do

One rule for each function on the core: the state in which it ends, as a function of the
state in which it is called.
-/
namespace PynqPrio.Gpio
open Programs Programs.Driver Programs.Prog

namespace Channel

/-- The offset of the registers of a channel, as the probe sets it. -/
def offset : Channel → ℕ
  | .first => 0
  | .second => channelOffset

/-- The position of the channel in `IPIER` and `IPISR`. -/
def index : Channel → ℕ
  | .first => 0
  | .second => 1

theorem index_lt (c : Channel) : c.index < 32 := by cases c <;> decide

theorem index_inj {c c' : Channel} : c.index = c'.index ↔ c = c' := by
  cases c <;> cases c' <;> decide

/-- The channels of a device. -/
def Present (dual : Bool) : Channel → Prop
  | .first => True
  | .second => dual = true

instance (dual : Bool) : (c : Channel) → Decidable (c.Present dual)
  | .first => inferInstanceAs (Decidable True)
  | .second => inferInstanceAs (Decidable (dual = true))

end Channel

/-- The structures of the channels have the offsets of their registers. -/
def Placed (dual : Bool) (d : GpioMem) : Prop :=
  ∀ c : Channel, c.Present dual → (d.chip c).offset = c.offset

theorem channelBit_of_offset {chip : XgpioInstance} {c : Channel} (h : chip.offset = c.offset) :
    chip.channelBit = BitVec.twoPow 32 c.index := by
  rw [XgpioInstance.channelBit, h]
  cases c <;> decide

theorem GpioRegs.read_data (s : GpioRegs) (c : Channel) : s.read c.offset = s.pins c := by
  cases c <;> rfl

theorem GpioRegs.write_tri (s : GpioRegs) (c : Channel) (v : BitVec 32) :
    s.write (c.offset + triOffset) v = { s with tri := Function.update s.tri c v } := by
  cases c <;> rfl

theorem GpioRegs.write_data (s : GpioRegs) (c : Channel) (v : BitVec 32) :
    s.write (c.offset + dataOffset) v = { s with data := Function.update s.data c v } := by
  cases c <;> rfl

section Rules

variable {s t : Sys GpioRegs}

@[simp] theorem exec_readreg (addr : ℕ) (x : BitVec 32) :
    Exec (withMemory gpioCore) (xgpioReadreg addr) s x t ↔ x = s.dev.read addr ∧ t = s := by
  refine (exec_port (R := Port.Res) (.readreg addr) x).trans ?_
  constructor
  · rintro ⟨_, ⟨_, ⟨⟩⟩, rfl⟩
    exact ⟨rfl, rfl⟩
  · rintro ⟨rfl, rfl⟩
    exact ⟨_, ⟨default, rfl⟩, rfl⟩

@[simp] theorem exec_writereg (addr : ℕ) (value : BitVec 32) (x : Unit) :
    Exec (withMemory gpioCore) (xgpioWritereg addr value) s x t ↔
      t = s.withDev (s.dev.write addr value) := by
  refine (exec_port (R := Port.Res) (.writereg addr value) x).trans ?_
  constructor
  · rintro ⟨_, ⟨_, ⟨⟩⟩, rfl⟩
    rfl
  · rintro rfl
    exact ⟨_, ⟨default, rfl⟩, rfl⟩

@[simp] theorem exec_instanceOf {dev : Machine Port Port.Res GpioRegs} (c : Channel)
    (x : XgpioInstance) : Exec (withMemory dev) (instanceOf c) s x t ↔ x = s.mem.chip c ∧ t = s := by
  simp only [instanceOf, exec_bind_iff, exec_get, exec_pure]
  constructor
  · rintro ⟨_, _, ⟨rfl, rfl⟩, rfl, rfl⟩
    exact ⟨rfl, rfl⟩
  · rintro ⟨rfl, rfl⟩
    exact ⟨_, _, ⟨rfl, rfl⟩, rfl, rfl⟩

theorem meets_instanceOf {δ : Type} {dev : Machine Port Port.Res δ} {G : Sys δ → Sys δ → Prop}
    {Q : XgpioInstance → Sys δ → Prop} {c : Channel} {s : Sys δ} :
    Meets (withMemory dev) G (instanceOf c) Q s ↔ Q (s.mem.chip c) s := by
  rw [instanceOf, meets_bind, meets_get, meets_pure]

def masked (c : Channel) (irq : ℤ) (s : Sys GpioRegs) : Sys GpioRegs :=
  let chip := s.mem.chip c
  let pin := bit (u32 (irq - chip.irqBase))
  let ipier := s.dev.ipier &&& chip.channelBit
  { mem := s.mem.update c fun chip => chip.withIrqEnable (chip.irqEnable &&& ~~~pin)
    trace := s.trace
    dev := if chip.irqEnable &&& ~~~pin ≠ 0 then s.dev
      else { s.dev with ipier := ipier, gier := if ipier = 0 then ~~~gierIe else s.dev.gier } }

theorem exec_irqMask (c : Channel) (irq : ℤ) (x : Unit) :
    Exec (withMemory gpioCore) (xgpioIrqMask c irq) s x t ↔ t = masked c irq s := by
  simp only [xgpioIrqMask, exec_bind_iff, exec_instanceOf, exec_modify, exec_ite, exec_readreg,
    exec_writereg, exec_pure]
  by_cases henable : (s.mem.chip c).irqEnable &&& ~~~bit (u32 (irq - (s.mem.chip c).irqBase)) = 0#32
  · by_cases hipier : s.dev.ipier &&& (s.mem.chip c).channelBit = 0#32
    · simp [masked, henable, hipier, Config.withMem, Config.withDev]
    · simp [masked, henable, hipier, Config.withMem, Config.withDev]
  · simp [masked, henable, Config.withMem]

def unmasked (c : Channel) (irq : ℤ) (s : Sys GpioRegs) : Sys GpioRegs :=
  let chip := s.mem.chip c
  let pin := bit (u32 (irq - chip.irqBase))
  let dev := s.dev.write (chip.offset + triOffset) (chip.gpioDir ||| pin)
  { mem := (s.mem.update c fun chip => chip.withDir (chip.gpioDir ||| pin)).update c fun chip =>
      chip.withIrqEnable (chip.irqEnable ||| pin)
    trace := s.trace
    dev := if chip.irqEnable ||| pin = 0 then dev
      else { dev with ipier := dev.ipier ||| chip.channelBit, gier := gierIe } }

theorem exec_irqUnmask (c : Channel) (irq : ℤ) (x : Unit) :
    Exec (withMemory gpioCore) (xgpioIrqUnmask c irq) s x t ↔ t = unmasked c irq s := by
  simp only [xgpioIrqUnmask, xgpioDirIn, exec_bind_iff, exec_instanceOf, exec_modify, exec_ite,
    exec_readreg, exec_writereg, exec_pure]
  by_cases henable : (s.mem.chip c).irqEnable ||| bit (u32 (irq - (s.mem.chip c).irqBase)) = 0#32
  · simp [unmasked, henable, Config.withMem, Config.withDev, -BitVec.or_eq_zero_iff]
  · simp [unmasked, henable, Config.withMem, Config.withDev, -BitVec.or_eq_zero_iff]

/-- The pins whose interrupts are handled. -/
def pendingPins (s : Sys GpioRegs) (c : Channel) : BitVec 32 :=
  s.dev.read (s.mem.chip c).offset &&& (s.mem.chip c).irqEnable

theorem exec_irqhandlerRead (c : Channel) (val : BitVec 32) :
    Exec (withMemory gpioCore) (irqhandlerRead c) s val t ↔ val = pendingPins s c ∧ t = s := by
  simp only [irqhandlerRead, exec_bind_iff, exec_instanceOf, exec_readreg, exec_pure]
  constructor
  · rintro ⟨_, _, ⟨rfl, rfl⟩, _, _, ⟨rfl, rfl⟩, rfl, rfl⟩
    exact ⟨rfl, rfl⟩
  · rintro ⟨rfl, rfl⟩
    exact ⟨_, _, ⟨rfl, rfl⟩, _, _, ⟨rfl, rfl⟩, rfl, rfl⟩

/-- The interrupts of the pins in `val`, in ascending order. -/
def irqsOf (chip : XgpioInstance) (val : BitVec 32) : List Event :=
  (setBits val chip.ngpio).map fun offset : ℕ => .handleIrq (chip.irqBase + offset)

theorem exec_irqhandlerDispatch (c : Channel) (val : BitVec 32) (x : Unit) :
    Exec (withMemory gpioCore) (irqhandlerDispatch c val) s x t ↔
      t = { s with trace := s.trace ++ irqsOf (s.mem.chip c) val } := by
  simp only [irqhandlerDispatch, exec_bind_iff, exec_instanceOf, exec_forM_note]
  constructor
  · rintro ⟨_, _, ⟨rfl, rfl⟩, rfl⟩
    rfl
  · rintro rfl
    exact ⟨_, _, ⟨rfl, rfl⟩, rfl⟩

theorem exec_irqhandlerAck (c : Channel) (x : Unit) :
    Exec (withMemory gpioCore) (irqhandlerAck c) s x t ↔
      t = s.withDev { s.dev with ipisr := s.dev.ipisr ^^^ (s.mem.chip c).channelBit } := by
  simp only [irqhandlerAck, exec_bind_iff, exec_instanceOf, exec_writereg]
  constructor
  · rintro ⟨_, _, ⟨rfl, rfl⟩, rfl⟩
    rfl
  · rintro rfl
    exact ⟨_, _, ⟨rfl, rfl⟩, rfl⟩

def handled (c : Channel) (s : Sys GpioRegs) : Sys GpioRegs where
  mem := s.mem
  trace := s.trace ++ irqsOf (s.mem.chip c) (pendingPins s c)
  dev := { s.dev with ipisr := s.dev.ipisr ^^^ (s.mem.chip c).channelBit }

theorem exec_irqhandler {irq : ℕ} {c : Channel} (h : s.mem.handlerData irq = some c) (x : Unit) :
    Exec (withMemory gpioCore) (xgpioIrqhandler irq) s x t ↔ t = handled c s := by
  simp only [xgpioIrqhandler, exec_bind_iff, exec_get]
  constructor
  · rintro ⟨_, _, ⟨rfl, rfl⟩, hrun⟩
    simp only [h, exec_bind_iff, exec_irqhandlerRead, exec_irqhandlerDispatch,
      exec_irqhandlerAck] at hrun
    obtain ⟨_, _, ⟨rfl, rfl⟩, _, _, rfl, rfl⟩ := hrun
    rfl
  · rintro rfl
    refine ⟨_, _, ⟨rfl, rfl⟩, ?_⟩
    simp only [h, exec_bind_iff, exec_irqhandlerRead, exec_irqhandlerDispatch, exec_irqhandlerAck]
    exact ⟨_, _, ⟨rfl, rfl⟩, (), _, rfl, rfl⟩

end Rules

section Calls

variable {dual : Bool} {s t : Sys GpioRegs} {c : Channel} {irq : ℤ}

/-- A call of one of the two functions by the interrupt core. -/
inductive IrqCall where
  | mask (c : Channel) (irq : ℤ)
  | unmask (c : Channel) (irq : ℤ)

namespace IrqCall

def channel : IrqCall → Channel
  | .mask c _ | .unmask c _ => c

def prog : IrqCall → Xgpio Unit
  | .mask c irq => xgpioIrqMask c irq
  | .unmask c irq => xgpioIrqUnmask c irq

def after (s : Sys GpioRegs) : IrqCall → Sys GpioRegs
  | .mask c irq => masked c irq s
  | .unmask c irq => unmasked c irq s

theorem exec_iff (call : IrqCall) {s t : Sys GpioRegs} :
    Exec (withMemory gpioCore) call.prog s () t ↔ t = call.after s := by
  cases call with
  | mask c irq => exact exec_irqMask c irq ()
  | unmask c irq => exact exec_irqUnmask c irq ()

end IrqCall

/-- A call on a channel that the device has. -/
def IrqStep (dual : Bool) (s : Sys GpioRegs) (call : IrqCall) (t : Sys GpioRegs) : Prop :=
  call.channel.Present dual ∧ Exec (withMemory gpioCore) call.prog s () t

theorem Placed.update {d : GpioMem} (h : Placed dual d) (f : XgpioInstance → XgpioInstance)
    (hf : ∀ chip, (f chip).offset = chip.offset) : Placed dual (d.update c f) := by
  intro c' hc'
  by_cases hcc : c' = c
  · subst hcc
    rw [GpioMem.update_self, hf]
    exact h c' hc'
  · rw [GpioMem.update_of_ne _ _ hcc]
    exact h c' hc'

theorem Placed.masked (h : Placed dual s.mem) : Placed dual (masked c irq s).mem := by
  simp only [Gpio.masked]
  exact h.update _ fun _ => rfl

theorem Placed.unmasked (h : Placed dual s.mem) : Placed dual (unmasked c irq s).mem := by
  simp only [Gpio.unmasked]
  refine Placed.update ?_ _ fun _ => rfl
  exact h.update _ fun _ => rfl

end Calls

end PynqPrio.Gpio
