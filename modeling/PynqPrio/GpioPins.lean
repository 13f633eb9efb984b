import PynqPrio.GpioDispatch
import PynqPrio.GpioInterruptEnable

/-!
# Pins and shadow registers

The driver keeps the values and directions of all pins of a channel in two shadow
registers, `gpio_state` and `gpio_dir`. The calls on a pin come to independent updates of
one pin, and the registers of the device follow the shadows.
-/
namespace PynqPrio.Gpio
open Programs Programs.Driver Programs.Prog

section Pins

structure Pin where
  value : Bool
  input : Bool
  deriving DecidableEq

/-- The calls on a pin. The interrupt core passes the number of the interrupt of the pin. -/
inductive PinCall where
  | set (c : Channel) (pin : ℕ) (val : ℤ)
  | dirIn (c : Channel) (pin : ℕ)
  | dirOut (c : Channel) (pin : ℕ) (val : ℤ)
  | irqMask (c : Channel) (pin : ℕ)
  | irqUnmask (c : Channel) (pin : ℕ)

namespace PinCall

def channel : PinCall → Channel
  | .set c _ _ | .dirIn c _ | .dirOut c _ _ | .irqMask c _ | .irqUnmask c _ => c

def pin : PinCall → ℕ
  | .set _ p _ | .dirIn _ p | .dirOut _ p _ | .irqMask _ p | .irqUnmask _ p => p

def prog (d : GpioMem) : PinCall → Xgpio Unit
  | .set c p val => xgpioSet c p val
  | .dirIn c p => xgpioDirIn c p
  | .dirOut c p val => xgpioDirOut c p val
  | .irqMask c p => xgpioIrqMask c ((d.chip c).irqBase + p)
  | .irqUnmask c p => xgpioIrqUnmask c ((d.chip c).irqBase + p)

def drives : PinCall → Option Bool
  | .set _ _ val | .dirOut _ _ val => some (decide (val ≠ 0))
  | .dirIn .. | .irqMask .. | .irqUnmask .. => none

def directs : PinCall → Option Bool
  | .dirIn .. | .irqUnmask .. => some true
  | .dirOut .. => some false
  | .set .. | .irqMask .. => none

def act (call : PinCall) (pin : Pin) : Pin where
  value := call.drives.getD pin.value
  input := call.directs.getD pin.input

def On (call : PinCall) (c : Channel) (pin : ℕ) : Prop := call.channel = c ∧ call.pin = pin

instance (call : PinCall) (c : Channel) (pin : ℕ) : Decidable (call.On c pin) :=
  inferInstanceAs (Decidable (_ ∧ _))

end PinCall

structure PinStep (dual : Bool) (s : Sys GpioRegs) (call : PinCall) (t : Sys GpioRegs) : Prop where
  present : call.channel.Present dual
  valid : call.pin < (s.mem.chip call.channel).ngpio
  exec : Exec (withMemory gpioCore) (call.prog s.mem) s () t

def pinOf (s : Sys GpioRegs) (c : Channel) (pin : ℕ) : Pin :=
  ⟨(s.mem.chip c).gpioState.getLsbD pin, (s.mem.chip c).gpioDir.getLsbD pin⟩

/-- The registers of the channels have been written the shadow registers. -/
def Coherent (dual : Bool) (s : Sys GpioRegs) : Prop :=
  ∀ c : Channel, c.Present dual →
    s.dev.data c = (s.mem.chip c).gpioState ∧ s.dev.tri c = (s.mem.chip c).gpioDir

/-- A channel is as before: its structure and its registers. -/
structure SameChannel (c : Channel) (s t : Sys GpioRegs) : Prop where
  chip : t.mem.chip c = s.mem.chip c
  data : t.dev.data c = s.dev.data c
  tri : t.dev.tri c = s.dev.tri c

variable {dual : Bool} {c : Channel} {s t : Sys GpioRegs} {pin : ℕ} {val : ℤ}

theorem getLsbD_bit (n i : ℕ) (hn : n < 32) : (bit n).getLsbD i = decide (i = n) := by
  have htwo : bit n = BitVec.twoPow 32 n := (BitVec.twoPow_eq 32 n).symm
  rw [htwo, BitVec.getLsbD_twoPow]
  by_cases hi : n = i
  · simp [hi, hi ▸ hn]
  · simp [hi, Ne.symm hi]

theorem getLsbD_setPin (v : BitVec 32) (val : ℤ) (hpin : pin < 32) (i : ℕ) :
    (setPin v pin val).getLsbD i = if i = pin then decide (val ≠ 0) else v.getLsbD i := by
  have hlt : v.getLsbD i = true → i < 32 := BitVec.lt_of_getLsbD
  rw [setPin]
  by_cases hval : val ≠ 0
  · rw [if_pos hval, BitVec.getLsbD_or, getLsbD_bit _ _ hpin]
    by_cases hi : i = pin <;> simp [hi, hval]
  · rw [if_neg hval, BitVec.getLsbD_and, BitVec.getLsbD_not, getLsbD_bit _ _ hpin]
    by_cases hi : i = pin
    · simp [hi, hval]
    · cases hv : v.getLsbD i with
      | false => simp [hi]
      | true => simp [hi, hlt hv]

def valueSet (c : Channel) (pin : ℕ) (val : ℤ) (s : Sys GpioRegs) : Sys GpioRegs :=
  let state := setPin (s.mem.chip c).gpioState pin val
  { mem := s.mem.update c fun chip => chip.withState (setPin chip.gpioState pin val)
    trace := s.trace
    dev := { s.dev with data := Function.update s.dev.data c state } }

def dirSet (c : Channel) (f : BitVec 32 → BitVec 32) (s : Sys GpioRegs) : Sys GpioRegs :=
  let dir := f (s.mem.chip c).gpioDir
  { mem := s.mem.update c fun chip => chip.withDir (f chip.gpioDir)
    trace := s.trace
    dev := { s.dev with tri := Function.update s.dev.tri c dir } }

theorem exec_set (hoffset : (s.mem.chip c).offset = c.offset) (x : Unit) :
    Exec (withMemory gpioCore) (xgpioSet c pin val) s x t ↔ t = valueSet c pin val s := by
  simp [xgpioSet, exec_bind_iff, hoffset, GpioRegs.write_data, Config.withMem, Config.withDev,
    valueSet]

theorem exec_dirIn (hoffset : (s.mem.chip c).offset = c.offset) (x : Unit) :
    Exec (withMemory gpioCore) (xgpioDirIn c pin) s x t ↔ t = dirSet c (· ||| bit pin) s := by
  simp [xgpioDirIn, exec_bind_iff, hoffset, GpioRegs.write_tri, Config.withMem, Config.withDev,
    dirSet]

theorem exec_dirOut (hoffset : (s.mem.chip c).offset = c.offset) (x : Unit) :
    Exec (withMemory gpioCore) (xgpioDirOut c pin val) s x t ↔
      t = dirSet c (· &&& ~~~bit pin) (valueSet c pin val s) := by
  simp [xgpioDirOut, exec_bind_iff, hoffset, GpioRegs.write_data, GpioRegs.write_tri,
    Config.withMem, Config.withDev, dirSet, valueSet]

def PinCall.after (s : Sys GpioRegs) : PinCall → Sys GpioRegs
  | .set c pin val => valueSet c pin val s
  | .dirIn c pin => dirSet c (· ||| bit pin) s
  | .dirOut c pin val => dirSet c (· &&& ~~~bit pin) (valueSet c pin val s)
  | .irqMask c pin => masked c ((s.mem.chip c).irqBase + pin) s
  | .irqUnmask c pin => unmasked c ((s.mem.chip c).irqBase + pin) s

theorem PinCall.exec_iff (call : PinCall)
    (hoffset : (s.mem.chip call.channel).offset = call.channel.offset) :
    Exec (withMemory gpioCore) (call.prog s.mem) s () t ↔ t = call.after s := by
  cases call with
  | set c pin val => exact exec_set hoffset ()
  | dirIn c pin => exact exec_dirIn hoffset ()
  | dirOut c pin val => exact exec_dirOut hoffset ()
  | irqMask c pin => exact exec_irqMask c _ ()
  | irqUnmask c pin => exact exec_irqUnmask c _ ()

theorem valueSet_pinOf (hpin : pin < 32) (i : ℕ) : pinOf (valueSet c pin val s) c i =
    if i = pin then ⟨decide (val ≠ 0), (pinOf s c i).input⟩ else pinOf s c i := by
  have hstate := getLsbD_setPin (s.mem.chip c).gpioState val hpin i
  simp only [pinOf, valueSet, GpioMem.update_self, XgpioInstance.withState_gpioState,
    XgpioInstance.withState_gpioDir, hstate]
  split <;> rfl

theorem dirSet_pinOf {f : BitVec 32 → BitVec 32} {input : Bool} (i : ℕ)
    (hf : ∀ v : BitVec 32, (f v).getLsbD i = if i = pin then input else v.getLsbD i) :
    pinOf (dirSet c f s) c i =
      if i = pin then ⟨(pinOf s c i).value, input⟩ else pinOf s c i := by
  simp only [pinOf, dirSet, GpioMem.update_self, XgpioInstance.withDir_gpioState,
    XgpioInstance.withDir_gpioDir, hf]
  split <;> rfl

theorem getLsbD_or_bit (hpin : pin < 32) (v : BitVec 32) (i : ℕ) :
    (v ||| bit pin).getLsbD i = if i = pin then true else v.getLsbD i := by
  have h := getLsbD_setPin v 1 hpin i
  simpa [setPin] using h

theorem getLsbD_and_bit (hpin : pin < 32) (v : BitVec 32) (i : ℕ) :
    (v &&& ~~~bit pin).getLsbD i = if i = pin then false else v.getLsbD i := by
  have h := getLsbD_setPin v 0 hpin i
  simpa [setPin] using h

theorem u32_pin (base : ℤ) (hpin : pin < 32) : u32 (base + pin - base) = pin := by
  rw [u32]
  omega

/-- What a call does, as an update of one pin. -/
structure PinEffect (call : PinCall) (s t : Sys GpioRegs) : Prop where
  other : ∀ c, c ≠ call.channel → SameChannel c s t
  pins : ∀ i, pinOf t call.channel i =
    if i = call.pin then call.act (pinOf s call.channel i) else pinOf s call.channel i
  irqEnable : ∀ i, i ≠ call.pin → (t.mem.chip call.channel).irqEnable.getLsbD i =
    (s.mem.chip call.channel).irqEnable.getLsbD i
  registers : s.dev.data call.channel = (s.mem.chip call.channel).gpioState →
    s.dev.tri call.channel = (s.mem.chip call.channel).gpioDir →
    t.dev.data call.channel = (t.mem.chip call.channel).gpioState ∧
      t.dev.tri call.channel = (t.mem.chip call.channel).gpioDir
  wiring : t.mem.wiring = s.mem.wiring

theorem valueSet_other {c' : Channel} (h : c' ≠ c) : SameChannel c' s (valueSet c pin val s) where
  chip := by
    simp only [valueSet]
    exact GpioMem.update_of_ne _ _ h
  data := Function.update_of_ne h _ _
  tri := rfl

theorem dirSet_other {f : BitVec 32 → BitVec 32} {c' : Channel} (h : c' ≠ c) :
    SameChannel c' s (dirSet c f s) where
  chip := by
    simp only [dirSet]
    exact GpioMem.update_of_ne _ _ h
  data := rfl
  tri := Function.update_of_ne h _ _

theorem valueSet_wiring : (valueSet c pin val s).mem.wiring = s.mem.wiring := by
  simp only [valueSet]
  exact wiring_update_same _ _ fun _ => rfl

theorem dirSet_wiring {f : BitVec 32 → BitVec 32} : (dirSet c f s).mem.wiring = s.mem.wiring := by
  simp only [dirSet]
  exact wiring_update_same _ _ fun _ => rfl

theorem SameChannel.trans {u : Sys GpioRegs} (h : SameChannel c s t) (h' : SameChannel c t u) :
    SameChannel c s u :=
  ⟨h'.chip.trans h.chip, h'.data.trans h.data, h'.tri.trans h.tri⟩

theorem effect_set (hpin : pin < 32) : PinEffect (.set c pin val) s (valueSet c pin val s) where
  other := fun _ hc => valueSet_other hc
  pins := valueSet_pinOf hpin
  irqEnable := fun i _ => by
    simp [PinCall.channel, valueSet]
  registers := by
    intro _ htri
    simpa [PinCall.channel, valueSet] using htri
  wiring := valueSet_wiring

theorem effect_dirIn (hpin : pin < 32) :
    PinEffect (.dirIn c pin) s (dirSet c (· ||| bit pin) s) where
  other := fun _ hc => dirSet_other hc
  pins := fun i => dirSet_pinOf i fun v => getLsbD_or_bit hpin v i
  irqEnable := fun i _ => by
    simp [PinCall.channel, dirSet]
  registers := by
    intro hdata _
    simpa [PinCall.channel, dirSet] using hdata
  wiring := dirSet_wiring

theorem effect_dirOut (hpin : pin < 32) : PinEffect (.dirOut c pin val) s
    (dirSet c (· &&& ~~~bit pin) (valueSet c pin val s)) where
  other := fun _ hc => (valueSet_other hc).trans (dirSet_other hc)
  pins := by
    intro i
    change pinOf _ c i = _
    rw [dirSet_pinOf i fun v => getLsbD_and_bit hpin v i, valueSet_pinOf hpin]
    by_cases hi : i = pin
    · simp [hi, PinCall.pin, PinCall.act, PinCall.drives, PinCall.directs]
    · simp [hi, PinCall.pin, PinCall.channel]
  irqEnable := fun i _ => by
    simp [PinCall.channel, dirSet, valueSet]
  registers := by
    intro _ _
    simp [PinCall.channel, dirSet, valueSet]
  wiring := dirSet_wiring.trans valueSet_wiring

theorem effect_irqMask {irq : ℤ} (hirq : u32 (irq - (s.mem.chip c).irqBase) = pin)
    (hpin : pin < 32) : PinEffect (.irqMask c pin) s (masked c irq s) where
  other := fun c' hc => by
    have hdev : (masked c irq s).dev.data = s.dev.data ∧ (masked c irq s).dev.tri = s.dev.tri := by
      simp only [masked]
      split <;> exact ⟨rfl, rfl⟩
    have hne : c' ≠ c := hc
    refine ⟨?_, congrFun hdev.1 c', congrFun hdev.2 c'⟩
    simp only [masked]
    exact GpioMem.update_of_ne _ _ hne
  pins := by
    intro i
    have hchip : (masked c irq s).mem.chip c = (s.mem.chip c).withIrqEnable
        ((s.mem.chip c).irqEnable &&& ~~~bit pin) := by
      simp [masked, hirq]
    change pinOf (masked c irq s) c i = _
    rw [pinOf, hchip]
    split <;> rfl
  irqEnable := by
    intro i hi
    have hne : i ≠ pin := hi
    simp [PinCall.channel, masked, hirq, getLsbD_and_bit hpin, hne, -BitVec.getLsbD_and]
  registers := by
    intro hdata htri
    simp only [PinCall.channel, masked, GpioMem.update_self] at hdata htri ⊢
    split <;> exact ⟨hdata, htri⟩
  wiring := (preserves_irqMask c irq).exec ((exec_irqMask c irq ()).mpr rfl)

theorem effect_irqUnmask {irq : ℤ} (hoffset : (s.mem.chip c).offset = c.offset)
    (hirq : u32 (irq - (s.mem.chip c).irqBase) = pin) (hpin : pin < 32) :
    PinEffect (.irqUnmask c pin) s (unmasked c irq s) where
  other := fun c' hc => by
    have hdev : (unmasked c irq s).dev.data = s.dev.data ∧
        (unmasked c irq s).dev.tri c' = s.dev.tri c' := by
      simp only [unmasked, hoffset, GpioRegs.write_tri]
      split <;> exact ⟨rfl, Function.update_of_ne hc _ _⟩
    have hne : c' ≠ c := hc
    refine ⟨?_, congrFun hdev.1 c', hdev.2⟩
    simp only [unmasked]
    rw [GpioMem.update_of_ne _ _ hne, GpioMem.update_of_ne _ _ hne]
  pins := by
    intro i
    have hchip : (unmasked c irq s).mem.chip c = ((s.mem.chip c).withDir
        ((s.mem.chip c).gpioDir ||| bit pin)).withIrqEnable ((s.mem.chip c).irqEnable ||| bit pin) := by
      simp [unmasked, hirq]
    have hdir := getLsbD_or_bit hpin (s.mem.chip c).gpioDir i
    change pinOf (unmasked c irq s) c i = if i = pin then _ else pinOf s c i
    simp only [pinOf, hchip, XgpioInstance.withIrqEnable_gpioState,
      XgpioInstance.withDir_gpioState, XgpioInstance.withIrqEnable_gpioDir,
      XgpioInstance.withDir_gpioDir, hdir]
    split <;> rfl
  irqEnable := by
    intro i hi
    have hne : i ≠ pin := hi
    simp [PinCall.channel, unmasked, hirq, getLsbD_or_bit hpin, hne, -BitVec.getLsbD_or]
  registers := by
    intro hdata htri
    simp only [PinCall.channel, unmasked, GpioMem.update_self, hoffset,
      GpioRegs.write_tri] at hdata htri ⊢
    split <;> exact ⟨hdata, Function.update_self ..⟩
  wiring := (preserves_irqUnmask c irq).exec ((exec_irqUnmask c irq ()).mpr rfl)

theorem pinStep_effect {call : PinCall} (hplaced : Placed dual s.mem)
    (hpin : call.pin < 32) (h : PinStep dual s call t) : PinEffect call s t := by
  have hoffset := hplaced call.channel h.present
  obtain rfl := (call.exec_iff hoffset).mp h.exec
  cases call with
  | set c pin val => exact effect_set hpin
  | dirIn c pin => exact effect_dirIn hpin
  | dirOut c pin val => exact effect_dirOut hpin
  | irqMask c pin => exact effect_irqMask (u32_pin _ hpin) hpin
  | irqUnmask c pin => exact effect_irqUnmask hoffset (u32_pin _ hpin) hpin

def enableBit (c : Channel) (s : Sys GpioRegs) : Bool := s.dev.ipier.getLsbD c.index

/-- A mask call leaves a pin of its channel unmasked, or finds the other channel disabled. -/
def SparesOther (dual : Bool) (s : Sys GpioRegs) (call : PinCall) (_ : Sys GpioRegs) : Prop :=
  match call with
  | .irqMask c pin => (s.mem.chip c).irqEnable &&& ~~~bit pin ≠ 0 ∨
      ∀ c' : Channel, c'.Present dual → c' ≠ c → enableBit c' s = false
  | .set .. | .dirIn .. | .dirOut .. | .irqUnmask .. => True

theorem enableBit_masked {irq : ℤ} (hoffset : (s.mem.chip c).offset = c.offset)
    {c' : Channel} (hne : c' ≠ c) : enableBit c' (masked c irq s) =
      (enableBit c' s && decide (leftEnabled s c irq ≠ 0)) := by
  by_cases hleft : leftEnabled s c irq = 0
  · have hbit := getLsbD_channelBit hoffset c'
    rw [enableBit, masked_dev_of_last hleft, BitVec.getLsbD_and, hbit]
    simp [hleft, Ne.symm hne]
  · rw [enableBit, masked_dev_of_left hleft, decide_eq_true hleft, Bool.and_true]
    rfl

theorem enableBit_unmasked {irq : ℤ} (hoffset : (s.mem.chip c).offset = c.offset)
    {c' : Channel} (hne : c' ≠ c) : enableBit c' (unmasked c irq s) = enableBit c' s := by
  have hbit := getLsbD_channelBit hoffset c'
  simp only [enableBit, unmasked, hoffset, GpioRegs.write_tri]
  split
  · rfl
  · simp [hbit, Ne.symm hne]

theorem masked_spares {irq : ℤ} (hoffset : (s.mem.chip c).offset = c.offset)
    (hirq : u32 (irq - (s.mem.chip c).irqBase) = pin) :
    (∀ c' : Channel, c'.Present dual → c' ≠ c → enableBit c' (masked c irq s) = enableBit c' s) ↔
      SparesOther dual s (.irqMask c pin) (masked c irq s) := by
  have hleft : leftEnabled s c irq = (s.mem.chip c).irqEnable &&& ~~~bit pin := by
    rw [leftEnabled, hirq]
  constructor
  · intro hkeep
    by_cases hzero : (s.mem.chip c).irqEnable &&& ~~~bit pin = 0
    · refine .inr fun c' hc' hne => ?_
      rw [← hkeep c' hc' hne, enableBit_masked hoffset hne, hleft, hzero]
      simp
    · exact .inl hzero
  · intro hspare c' hc' hne
    rw [enableBit_masked hoffset hne, hleft]
    cases hspare with
    | inl hkept => rw [decide_eq_true hkept, Bool.and_true]
    | inr hclear => rw [hclear c' hc' hne, Bool.false_and]

/-- The bits of the other channels stay exactly where the call spares them. -/
theorem pinStep_enableBit {call : PinCall} (hplaced : Placed dual s.mem)
    (hpin : call.pin < 32) (h : PinStep dual s call t) :
    (∀ c : Channel, c.Present dual → c ≠ call.channel → enableBit c t = enableBit c s) ↔
      SparesOther dual s call t := by
  have hoffset := hplaced call.channel h.present
  obtain rfl := (call.exec_iff hoffset).mp h.exec
  cases call with
  | set c pin val => exact iff_of_true (fun _ _ _ => rfl) trivial
  | dirIn c pin => exact iff_of_true (fun _ _ _ => rfl) trivial
  | dirOut c pin val => exact iff_of_true (fun _ _ _ => rfl) trivial
  | irqMask c pin => exact masked_spares hoffset (u32_pin _ hpin)
  | irqUnmask c pin => exact iff_of_true (fun _ _ hne => enableBit_unmasked hoffset hne) trivial

@[simp] theorem meets_writereg {G : Sys GpioRegs → Sys GpioRegs → Prop} {Q : Unit → Sys GpioRegs → Prop}
    (addr : ℕ) (value : BitVec 32) :
    Meets (withMemory gpioCore) G (xgpioWritereg addr value) Q s ↔
      (s ≠ s.withDev (s.dev.write addr value) → G s (s.withDev (s.dev.write addr value))) ∧
        Q () (s.withDev (s.dev.write addr value)) := by
  refine (meets_port (R := Port.Res) (.writereg addr value)).trans ?_
  constructor
  · intro h
    exact h () _ ⟨default, rfl⟩
  · rintro h _ _ ⟨_, ⟨⟩⟩
    exact h

/-- `TRI` is written while `DATA` holds the value of the pin. -/
def DataFirst (c : Channel) (pin : ℕ) (val : ℤ) (s t : Sys GpioRegs) : Prop :=
  t.dev.tri c ≠ s.dev.tri c → (s.dev.data c).getLsbD pin = decide (val ≠ 0)

theorem dirOut_dataFirst (hoffset : (s.mem.chip c).offset = c.offset) (hpin : pin < 32) :
    Meets (withMemory gpioCore) (DataFirst c pin val) (xgpioDirOut c pin val) (fun _ _ => True) s := by
  have hbit := getLsbD_setPin (s.mem.chip c).gpioState val hpin pin
  simp [xgpioDirOut, instanceOf, hoffset, GpioRegs.write_data, GpioRegs.write_tri, DataFirst, hbit]

end Pins

section Calls

/-- The structure of a channel as the probe fills it in. -/
def DeviceTree.chip (dt : DeviceTree) : Channel → XgpioInstance
  | .first => dt.firstChip
  | .second => dt.secondChip

/-- `save_regs` for the channels of a device. -/
def saveChannels (dual : Bool) : Xgpio Unit := do
  xgpioSaveRegs .first
  if dual = true then xgpioSaveRegs .second

/-- The structures have the values of the device tree; the clock and the interrupt numbers
may be any. -/
def FromTree (dt : DeviceTree) (s : Sys GpioRegs) : Prop :=
  ∀ c : Channel, c.Present dt.dual → s.mem.chip c = { dt.chip c with
    irqBase := (s.mem.chip c).irqBase
    irqDomain := (s.mem.chip c).irqDomain
    clk := (s.mem.chip c).clk }

def Saved (dt : DeviceTree) (s : Sys GpioRegs) : Prop :=
  ∃ s₀, FromTree dt s₀ ∧ Exec (withMemory gpioCore) (saveChannels dt.dual) s₀ () s

def lastSet (set : PinCall → Option Bool) (c : Channel) (pin : ℕ)
    (l : List (PinCall × Sys GpioRegs)) : Option Bool :=
  (l.filterMap fun x => if x.1.On c pin then set x.1 else none).getLast?

/-- The pin as the calls on it have left it, which was `chip` at first. -/
def pinAfter (chip : XgpioInstance) (c : Channel) (pin : ℕ) (l : List (PinCall × Sys GpioRegs)) :
    Pin where
  value := (lastSet PinCall.drives c pin l).getD (chip.gpioState.getLsbD pin)
  input := (lastSet PinCall.directs c pin l).getD (chip.gpioDir.getLsbD pin)

structure SamePin (c : Channel) (pin : ℕ) (s t : Sys GpioRegs) : Prop where
  shadows : pinOf t c pin = pinOf s c pin
  irqEnable : (t.mem.chip c).irqEnable.getLsbD pin = (s.mem.chip c).irqEnable.getLsbD pin
  data : (t.dev.data c).getLsbD pin = (s.dev.data c).getLsbD pin
  tri : (t.dev.tri c).getLsbD pin = (s.dev.tri c).getLsbD pin

/-- A call changes one pin, and writes `DATA` before it makes the pin an output. -/
structure OnePin (dual : Bool) (s : Sys GpioRegs) (call : PinCall) (t : Sys GpioRegs) : Prop where
  pins : ∀ i, i ≠ call.pin → SamePin call.channel i s t
  channels : ∀ c : Channel, c.Present dual → c ≠ call.channel →
    SameChannel c s t ∧ enableBit c t = enableBit c s
  dataFirst : ∀ c pin val, call = .dirOut c pin val → ∀ u v,
    Steps (withMemory gpioCore) (xgpioDirOut c pin val) s u v → DataFirst c pin val u v

/-- The registers follow the shadows, the shadows have what was last set for each pin, and
each call changes one pin. -/
structure PinsIndependent (dt : DeviceTree) (s : Sys GpioRegs)
    (l : List (PinCall × Sys GpioRegs)) : Prop where
  coherent : ∀ l₁, l₁ <+: l → Coherent dt.dual (finish s l₁)
  last : ∀ l₁, l₁ <+: l → ∀ c : Channel, c.Present dt.dual → ∀ pin,
    pinOf (finish s l₁) c pin = pinAfter (dt.chip c) c pin l₁
  onePin : Everywhere (OnePin dt.dual) s l

structure PinsInv (dual : Bool) (s : Sys GpioRegs) : Prop where
  placed : Placed dual s.mem
  width : ∀ c : Channel, c.Present dual → (s.mem.chip c).ngpio ≤ 32
  coherent : Coherent dual s

variable {dt : DeviceTree} {dual : Bool} {c : Channel} {s t : Sys GpioRegs} {call : PinCall}
  {l : List (PinCall × Sys GpioRegs)}

theorem exec_saveRegs (hinit : (s.mem.chip c).noInit = false)
    (hoffset : (s.mem.chip c).offset = c.offset) (x : Unit) :
    Exec (withMemory gpioCore) (xgpioSaveRegs c) s x t ↔ t = s.withDev { s.dev with
      data := Function.update s.dev.data c (s.mem.chip c).gpioState
      tri := Function.update s.dev.tri c (s.mem.chip c).gpioDir } := by
  simp [xgpioSaveRegs, hinit, hoffset, GpioRegs.write_data, GpioRegs.write_tri, Config.withDev]

theorem FromTree.regs (h : FromTree dt s) (hc : c.Present dt.dual) :
    (s.mem.chip c).gpioState = (dt.chip c).gpioState ∧
      (s.mem.chip c).gpioDir = (dt.chip c).gpioDir ∧ (s.mem.chip c).offset = c.offset ∧
      (s.mem.chip c).noInit = (dt.chip c).noInit ∧ (s.mem.chip c).ngpio = (dt.chip c).ngpio := by
  have hoffset : (dt.chip c).offset = c.offset := by cases c <;> rfl
  rw [h c hc]
  exact ⟨rfl, rfl, hoffset, rfl, rfl⟩

theorem chip_noInit (hinit : dt.noInit = false) (c : Channel) : (dt.chip c).noInit = false := by
  cases c with
  | first => exact hinit
  | second => rfl

/-- `save_regs` writes the shadows to the registers and leaves the structures alone. -/
theorem Saved.fromTree (hinit : dt.noInit = false) (h : Saved dt s) :
    FromTree dt s ∧ Coherent dt.dual s := by
  obtain ⟨s₀, htree, hrun⟩ := h
  obtain ⟨-, -, hoffset, hnoInit, -⟩ := htree.regs (c := .first) trivial
  rw [chip_noInit hinit] at hnoInit
  simp only [saveChannels, exec_bind_iff, exec_saveRegs hnoInit hoffset, exec_ite, exec_pure] at hrun
  obtain ⟨_, _, rfl, ⟨hdual, hrun⟩ | ⟨hdual, -, rfl⟩⟩ := hrun
  · obtain ⟨-, -, hoffset', hnoInit', -⟩ := htree.regs (c := .second) hdual
    rw [chip_noInit hinit] at hnoInit'
    obtain rfl := (exec_saveRegs (by exact hnoInit') (by exact hoffset') ()).mp hrun
    refine ⟨htree, fun c _ => ?_⟩
    cases c <;> exact ⟨rfl, rfl⟩
  · refine ⟨htree, fun c hc => ?_⟩
    cases c with
    | first => exact ⟨rfl, rfl⟩
    | second => exact absurd hc hdual

theorem Saved.inv (hinit : dt.noInit = false)
    (hwidth : ∀ c : Channel, c.Present dt.dual → (dt.chip c).ngpio ≤ 32) (h : Saved dt s) :
    PinsInv dt.dual s := by
  obtain ⟨htree, hcoherent⟩ := h.fromTree hinit
  constructor
  · intro c hc
    exact (htree.regs hc).2.2.1
  · intro c hc
    rw [(htree.regs hc).2.2.2.2]
    exact hwidth c hc
  · exact hcoherent

theorem PinEffect.inv (h : PinEffect call s t) (hs : PinsInv dual s) : PinsInv dual t := by
  have hchannel : ∀ c, (t.mem.chip c).wiring = (s.mem.chip c).wiring := by
    intro c
    exact congrArg (fun w : Wiring => w.channel c) h.wiring
  constructor
  · intro c hc
    have hoffset : (t.mem.chip c).offset = (s.mem.chip c).offset :=
      congrArg ChannelWiring.offset (hchannel c)
    rw [hoffset, hs.placed c hc]
  · intro c hc
    have hngpio : (t.mem.chip c).ngpio = (s.mem.chip c).ngpio :=
      congrArg ChannelWiring.ngpio (hchannel c)
    rw [hngpio]
    exact hs.width c hc
  · intro c hpresent
    by_cases hcall : c = call.channel
    · subst hcall
      obtain ⟨hdata, htri⟩ := hs.coherent _ hpresent
      exact h.registers hdata htri
    · obtain ⟨hdata, htri⟩ := hs.coherent c hpresent
      have hsame := h.other c hcall
      rw [hsame.chip, hsame.data, hsame.tri]
      exact ⟨hdata, htri⟩

theorem PinStep.pin_lt (h : PinStep dual s call t) (hs : PinsInv dual s) : call.pin < 32 := by
  have hwidth := hs.width _ h.present
  have hvalid := h.valid
  omega

theorem PinStep.effect (h : PinStep dual s call t) (hs : PinsInv dual s) : PinEffect call s t :=
  pinStep_effect hs.placed (h.pin_lt hs) h

theorem PinStep.inv (h : PinStep dual s call t) (hs : PinsInv dual s) : PinsInv dual t :=
  (h.effect hs).inv hs

/-- A pin after a call. -/
theorem PinEffect.pinOf_iff (h : PinEffect call s t) (c : Channel) (i : ℕ) :
    pinOf t c i = if call.On c i then call.act (pinOf s c i) else pinOf s c i := by
  by_cases hc : call.channel = c
  · subst hc
    rw [h.pins]
    by_cases hi : i = call.pin
    · rw [if_pos hi, if_pos ⟨rfl, hi.symm⟩]
    · rw [if_neg hi, if_neg fun hon => hi hon.2.symm]
  · rw [if_neg fun hon => hc hon.1, pinOf, (h.other c (Ne.symm hc)).chip, pinOf]

theorem OnePin.of_effect (h : PinEffect call s t) (hs : PinsInv dual s)
    (hstep : PinStep dual s call t) : OnePin dual s call t ↔ SparesOther dual s call t := by
  have hpin := hstep.pin_lt hs
  rw [← pinStep_enableBit hs.placed hpin hstep]
  constructor
  · intro hone c hc hne
    exact (hone.channels c hc hne).2
  · intro hbits
    constructor
    · intro i hi
      obtain ⟨hdata, htri⟩ := hs.coherent _ hstep.present
      obtain ⟨hdata', htri'⟩ := (h.inv hs).coherent _ hstep.present
      have hshadows : pinOf t call.channel i = pinOf s call.channel i := by
        rw [h.pins, if_neg hi]
      constructor
      · exact hshadows
      · exact h.irqEnable i hi
      · rw [hdata, hdata']
        exact congrArg Pin.value hshadows
      · rw [htri, htri']
        exact congrArg Pin.input hshadows
    · intro c hc hne
      exact ⟨h.other c hne, hbits c hc hne⟩
    · rintro c pin val rfl u v huv
      by_cases hsame : u = v
      · subst hsame
        exact fun hne => absurd rfl hne
      · exact (dirOut_dataFirst (hs.placed c hstep.present) hpin).1 u v huv hsame

/-- The run lemma for the shadows. -/
theorem pinOf_finish (hs : PinsInv dual s) (hrun : Run (PinStep dual) s l) (c : Channel) (pin : ℕ) :
    pinOf (finish s l) c pin =
      ⟨(lastSet PinCall.drives c pin l).getD (pinOf s c pin).value,
        (lastSet PinCall.directs c pin l).getD (pinOf s c pin).input⟩ := by
  have hrun' := hrun.with_invariant (fun s i t hs h => h.inv hs) hs
  have hstep : ∀ s call t, PinsInv dual s ∧ PinStep dual s call t →
      (pinOf t c pin).value = (if call.On c pin then call.drives else none).getD
        (pinOf s c pin).value ∧
      (pinOf t c pin).input = (if call.On c pin then call.directs else none).getD
        (pinOf s c pin).input := by
    intro s call t h
    rw [(h.2.effect h.1).pinOf_iff c pin]
    split <;> exact ⟨rfl, rfl⟩
  have hvalue := hrun'.last_set fun s call t h => (hstep s call t h).1
  have hinput := hrun'.last_set fun s call t h => (hstep s call t h).2
  exact congrArg₂ Pin.mk hvalue hinput

/-- In every run of calls on valid pins the registers follow the shadows, the shadows have
what was last set for each pin, and the pins are independent of each other; and the calls
leave the other channel alone exactly if every mask call spares it. -/
theorem pins_independent_iff (dt : DeviceTree) (hinit : dt.noInit = false)
    (hwidth : ∀ c : Channel, c.Present dt.dual → (dt.chip c).ngpio ≤ 32) (s : Sys GpioRegs)
    (h : Saved dt s) (l : List (PinCall × Sys GpioRegs)) (hrun : Run (PinStep dt.dual) s l) :
    PinsIndependent dt s l ↔ Everywhere (SparesOther dt.dual) s l := by
  have hinv := h.inv hinit hwidth
  have hstep : ∀ s call t, PinsInv dt.dual s → PinStep dt.dual s call t →
      (OnePin dt.dual s call t ↔ SparesOther dt.dual s call t) ∧
        (OnePin dt.dual s call t → PinsInv dt.dual t) := by
    intro s call t hs h
    exact ⟨OnePin.of_effect (h.effect hs) hs h, fun _ => h.inv hs⟩
  rw [← hrun.everywhere_iff hstep hinv]
  constructor
  · exact fun hall => hall.onePin
  · intro honePin
    constructor
    · rintro l₁ ⟨l₂, rfl⟩
      exact (hrun.of_append.invariant (fun s i t hs hstep => hstep.inv hs) hinv).coherent
    · rintro l₁ ⟨l₂, rfl⟩ c hc pin
      obtain ⟨hstate, hdir, -⟩ := (h.fromTree hinit).1.regs hc
      rw [pinOf_finish hinv hrun.of_append, pinOf, hstate, hdir]
      rfl
    · exact honePin

end Calls

section Runs

/-- A device with two channels before `save_regs`. -/
def prepared : Sys GpioRegs := blank.withMem { blank.mem with
  chip := fun c => { (treeOf 1).chip c with irqBase := 100 + 100 * c.index } }

/-- A device with two channels after it. -/
def saved : Sys GpioRegs :=
  ((run (onDevice GpioRegs.answer willing) 1 (saveChannels true) prepared).getD ((), prepared)).2

theorem saved_saved : Saved (treeOf 1) saved := by
  have hrun : run (onDevice GpioRegs.answer willing) 1 (saveChannels true) prepared =
      some ((), saved) := rfl
  refine ⟨prepared, ?_, (onDevice_refines GpioRegs.answer willing).exec _
    ((watch_sound _ _).1 _ _ hrun)⟩
  intro c _
  cases c <;> rfl

def pinRun (s : Sys GpioRegs) : List PinCall → List (PinCall × Sys GpioRegs)
  | [] => []
  | i :: rest => (i, i.after s) :: pinRun (i.after s) rest

theorem pinRun_run (s : Sys GpioRegs) (hs : PinsInv true s) (calls : List PinCall)
    (hvalid : ∀ i ∈ calls, i.pin < (s.mem.chip i.channel).ngpio) :
    Run (PinStep true) s (pinRun s calls) := by
  induction calls generalizing s with
  | nil => exact .nil s
  | cons i rest ih =>
    have hpresent : i.channel.Present true := by
      cases i.channel with
      | first => trivial
      | second => rfl
    have hstep : PinStep true s i (i.after s) :=
      ⟨hpresent, hvalid i List.mem_cons_self, (i.exec_iff (hs.placed _ hpresent)).mpr rfl⟩
    refine .cons hstep (ih _ (hstep.inv hs) fun j hj => ?_)
    have hchannel := congrArg (fun w : Wiring => (w.channel j.channel).ngpio) (hstep.effect hs).wiring
    exact lt_of_lt_of_eq (hvalid j (List.mem_cons_of_mem i hj)) hchannel.symm

theorem saved_inv : PinsInv true saved :=
  saved_saved.inv rfl fun c _ => by cases c <;> decide

/-- An output is driven, two pins are unmasked and one of them is masked again. -/
theorem pins_independent_output : PinsIndependent (treeOf 1) saved
    (pinRun saved [.irqUnmask .first 0, .dirOut .second 0 1, .irqUnmask .first 1,
      .irqMask .first 0]) := by
  refine (pins_independent_iff (treeOf 1) rfl (fun c _ => by cases c <;> decide) saved saved_saved _
    (pinRun_run saved saved_inv _ (by decide))).mpr ?_
  exact ⟨trivial, trivial, trivial, .inl (by decide), trivial⟩

/-- When the only unmasked pin of the first channel is masked, the second channel changes. -/
theorem other_channel_changed : ¬∀ dt : DeviceTree, dt.noInit = false →
    (∀ c : Channel, c.Present dt.dual → (dt.chip c).ngpio ≤ 32) → ∀ s, Saved dt s →
    ∀ l, Run (PinStep dt.dual) s l → PinsIndependent dt s l := by
  intro h
  have hall := h (treeOf 1) rfl (fun c _ => by cases c <;> decide) saved saved_saved _
    (pinRun_run saved saved_inv
      [.irqUnmask .first 0, .irqUnmask .second 0, .irqMask .first 0] (by decide))
  obtain ⟨-, -, hmask, -⟩ := hall.onePin
  exact absurd (hmask.channels .second rfl (by decide)).2 (by decide)

end Runs

end PynqPrio.Gpio
