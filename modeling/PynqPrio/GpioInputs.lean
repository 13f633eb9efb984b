import PynqPrio.GpioProbe

/-!
# What happens around the handler

The pins change and the interrupt core masks and unmasks them, before, between and after
the steps of the handler. The device sets the `IPISR` bit of a channel on every change of
its pins.
-/
namespace PynqPrio.Gpio
open Programs Programs.Driver Programs.Prog

section Pins

def high (c : Channel) (s : Sys GpioRegs) (pin : ℕ) : Bool := (s.dev.pins c).getLsbD pin

def unmaskedPin (c : Channel) (s : Sys GpioRegs) (pin : ℕ) : Bool :=
  (s.mem.chip c).irqEnable.getLsbD pin

def rises (c : Channel) (s t : Sys GpioRegs) (pin : ℕ) : Bool := !high c s pin && high c t pin

def interruptBit (c : Channel) (s : Sys GpioRegs) : Bool := s.dev.ipisr.getLsbD c.index

/-- The pins of a channel change. The device sets the `IPISR` bit of the channel. -/
def changePins (c : Channel) (levels : BitVec 32) (s : Sys GpioRegs) : Sys GpioRegs :=
  s.withDev { s.dev with
    pins := fun c' => if c' = c then levels else s.dev.pins c'
    ipisr := if levels = s.dev.pins c then s.dev.ipisr
      else s.dev.ipisr ||| BitVec.twoPow 32 c.index }

inductive Input where
  | pins (c : Channel) (levels : BitVec 32)
  | call (call : IrqCall)

namespace Input

def channel : Input → Channel
  | .pins c _ => c
  | .call i => i.channel

def after (s : Sys GpioRegs) : Input → Sys GpioRegs
  | .pins c levels => changePins c levels s
  | .call i => i.after s

end Input

/-- A change of the pins, or a call of `xgpio_irq_mask` or `xgpio_irq_unmask`. -/
def InputStep (dual : Bool) (s : Sys GpioRegs) (i : Input) (t : Sys GpioRegs) : Prop :=
  match i with
  | .pins c levels => c.Present dual ∧ t = changePins c levels s
  | .call i => IrqStep dual s i t

variable {dual : Bool} {c : Channel} {s t : Sys GpioRegs} {pin : ℕ}

theorem inputStep_iff {i : Input} :
    InputStep dual s i t ↔ i.channel.Present dual ∧ t = i.after s := by
  cases i with
  | pins c levels => exact Iff.rfl
  | call i => exact and_congr_right fun _ => i.exec_iff

/-- The functions of the interrupt core leave the pins and `IPISR` alone. -/
theorem IrqCall.after_dev (call : IrqCall) (h : Placed dual s.mem)
    (hc : call.channel.Present dual) :
    (call.after s).dev.pins = s.dev.pins ∧ (call.after s).dev.ipisr = s.dev.ipisr := by
  cases call with
  | mask c irq =>
    simp only [IrqCall.after, masked]
    split
    · exact ⟨rfl, rfl⟩
    · exact ⟨rfl, rfl⟩
  | unmask c irq =>
    have hoffset : (s.mem.chip c).offset = c.offset := h c hc
    simp only [IrqCall.after, unmasked, hoffset, GpioRegs.write_tri]
    split
    · exact ⟨rfl, rfl⟩
    · exact ⟨rfl, rfl⟩

theorem Input.after_wiring (i : Input) : (i.after s).mem.wiring = s.mem.wiring := by
  cases i with
  | pins c levels => rfl
  | call i =>
    cases i with
    | mask c irq => exact (preserves_irqMask c irq).exec ((exec_irqMask c irq ()).mpr rfl)
    | unmask c irq => exact (preserves_irqUnmask c irq).exec ((exec_irqUnmask c irq ()).mpr rfl)

theorem Input.after_placed (i : Input) (h : Placed dual s.mem) : Placed dual (i.after s).mem := by
  intro c hc
  have hwiring : ((i.after s).mem.chip c).wiring = (s.mem.chip c).wiring :=
    congrArg (fun w : Wiring => w.channel c) (i.after_wiring (s := s))
  exact (congrArg ChannelWiring.offset hwiring).trans (h c hc)

theorem Input.after_ngpio (i : Input) (c : Channel) :
    ((i.after s).mem.chip c).ngpio = (s.mem.chip c).ngpio := by
  have hwiring : ((i.after s).mem.chip c).wiring = (s.mem.chip c).wiring :=
    congrArg (fun w : Wiring => w.channel c) (i.after_wiring (s := s))
  exact congrArg ChannelWiring.ngpio hwiring

/-- No input clears an interrupt bit. -/
theorem Input.after_interruptBit (i : Input) (h : Placed dual s.mem)
    (hi : i.channel.Present dual) (hbit : interruptBit c s = true) :
    interruptBit c (i.after s) = true := by
  cases i with
  | pins c' levels =>
    simp only [Input.after, changePins, interruptBit, Config.withDev_dev]
    split
    · exact hbit
    · rw [BitVec.getLsbD_or, Bool.or_eq_true]
      exact .inl hbit
  | call i =>
    rw [interruptBit, Input.after, (i.after_dev h hi).2]
    exact hbit

/-- A pin only rises when the device sets the interrupt bit. -/
theorem Input.interruptBit_of_rises (i : Input) (h : Placed dual s.mem)
    (hi : i.channel.Present dual) (hrise : rises c s (i.after s) pin = true) :
    interruptBit c (i.after s) = true := by
  simp only [rises, Bool.and_eq_true, Bool.not_eq_true'] at hrise
  obtain ⟨hlow, hhigh⟩ := hrise
  cases i with
  | pins c' levels =>
    simp only [high, Input.after, changePins, Config.withDev_dev] at hlow hhigh
    by_cases hcc : c = c'
    · subst hcc
      rw [if_pos rfl] at hhigh
      have hne : levels ≠ s.dev.pins c := by
        rintro rfl
        exact absurd (hlow.symm.trans hhigh) Bool.false_ne_true
      simp [interruptBit, Input.after, changePins, hne, c.index_lt]
    · rw [if_neg hcc] at hhigh
      exact absurd (hlow.symm.trans hhigh) Bool.false_ne_true
  | call i =>
    rw [high, Input.after, (i.after_dev h hi).1] at hhigh
    exact absurd (hlow.symm.trans hhigh) Bool.false_ne_true

end Pins

end PynqPrio.Gpio
