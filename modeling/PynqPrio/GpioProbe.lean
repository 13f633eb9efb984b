import PynqPrio.GpioRules

/-!
# The probe of the GPIO driver

`xgpio_of_probe` and `xgpio_irq_setup` with their error paths. The device tree is data,
the kernel functions that can fail are ports. After a successful probe the structures of
the channels, their interrupt domains and the data of the one chained handler are fixed.
-/
namespace PynqPrio.Gpio
open Programs Programs.Driver Programs.Prog

/-- What the driver reads from the device tree. `irq` is what `of_irq_to_resource` answers,
with the number of the interrupt. -/
structure DeviceTree where
  doutDefault : Option (BitVec 32)
  triDefault : Option (BitVec 32)
  noInit : Bool
  gpioWidth : Option (BitVec 32)
  isDual : Option (BitVec 32)
  doutDefault2 : Option (BitVec 32)
  triDefault2 : Option (BitVec 32)
  gpio2Width : Option (BitVec 32)
  irq : ℤ × ℕ

/-- `tree_info && be32_to_cpup(tree_info)`. -/
def DeviceTree.dual (dt : DeviceTree) : Bool := decide (dt.isDual.getD 0 ≠ 0)

/-! Error codes. -/
def enoent : ℤ := 2
def enomem : ℤ := 12
def eprobeDefer : ℤ := 517

/-! Functions of the kernel. -/
def kzalloc (c : Channel) : Xgpio Bool := port (P := Port) (.kzalloc c)
def clkGet : Xgpio (Except ℤ Unit) := port (P := Port) .clkGet
def irqAllocDescs (c : Channel) (cnt : ℕ) : Xgpio ℤ := port (P := Port) (.irqAllocDescs c cnt)

/-- The clock functions do nothing for a `NULL` clock. -/
def clkPrepareEnable (c : Channel) : Xgpio ℤ := do
  let chip ← instanceOf c
  if chip.clk = false then return 0
  let status ← (port (P := Port) .clkPrepareEnable : Xgpio ℤ)
  if status = 0 then modify fun d =>
    { d with clkPrepared := d.clkPrepared + 1, clkEnabled := d.clkEnabled + 1 }
  return status

def clkDisableUnprepare (c : Channel) : Xgpio Unit := do
  let chip ← instanceOf c
  if chip.clk = true then modify fun d =>
    { d with clkPrepared := d.clkPrepared - 1, clkEnabled := d.clkEnabled - 1 }

/-- `pm_runtime_set_active` and `pm_runtime_enable`. -/
def pmRuntimeEnable : Xgpio Unit := modify fun d => { d with pmActive := true, pmEnabled := true }
def pmRuntimeDisable : Xgpio Unit := modify fun d => { d with pmEnabled := false }

/-- When the usage count gets to 0, the device may be suspended from then on. -/
def pmRuntimePut : Xgpio Unit := modify fun d =>
  { d with pmUsage := d.pmUsage - 1, pmIdle := d.pmIdle || decide (d.pmUsage - 1 = 0) }

/-- Maps the registers, calls `save_regs` and registers the chip. -/
def ofMmGpiochipAdd (c : Channel) : Xgpio ℤ := do
  let mapped ← (port (P := Port) (.ioremap c) : Xgpio ℤ)
  if mapped ≠ 0 then return mapped
  xgpioSaveRegs c
  let status ← (port (P := Port) (.gpiochipAdd c) : Xgpio ℤ)
  if status = 0 then
    modify fun d => { d with registered := fun c' => if c' = c then true else d.registered c' }
  return status

def irqSetChipData (irq : ℤ) (c : Channel) : Xgpio Unit :=
  modify fun d => { d with chipData := fun irq' => if irq' = irq then some c else d.chipData irq' }

/-- Replaces the data that the interrupt had. -/
def irqSetHandlerData (irq : ℕ) (c : Channel) : Xgpio Unit :=
  modify fun d =>
    { d with handlerData := fun irq' => if irq' = irq then some c else d.handlerData irq' }

def irqSetChainedHandler (irq : ℕ) : Xgpio Unit :=
  modify fun d =>
    { d with chainedHandler := fun irq' => if irq' = irq then true else d.chainedHandler irq' }

def xgpioIrqSetup (dt : DeviceTree) (c : Channel) : Xgpio ℤ := do
  if dt.irq.1 = 0 then return 0
  let chip ← instanceOf c
  let base ← irqAllocDescs c chip.ngpio
  modify fun d => d.update c (·.withIrq base)
  if base < 0 then return -1
  modify fun d => d.update c (·.withDomain ⟨chip.ngpio, base⟩)
  let chip ← instanceOf c
  (List.range chip.ngpio).forM fun pin => irqSetChipData (irqFindMapping chip.irqDomain pin) c
  irqSetHandlerData dt.irq.2 c
  irqSetChainedHandler dt.irq.2
  return 0

/-- The label `err_unprepare_clk`, with the structure `chip` points to by then. -/
def errUnprepareClk (c : Channel) (status : ℤ) : Xgpio ℤ := do
  pmRuntimeDisable
  clkDisableUnprepare c
  return status

def errPmPut (c : Channel) (status : ℤ) : Xgpio ℤ := do
  pmRuntimePut
  errUnprepareClk c status

/-- The width is stored in an `u16`. -/
def widthOf (width : Option (BitVec 32)) : ℕ := (width.getD 32).toNat % 65536

/-- The structure of the first channel before it is registered. -/
def DeviceTree.firstChip (dt : DeviceTree) : XgpioInstance where
  gpioState := dt.doutDefault.getD 0
  gpioDir := dt.triDefault.getD 0xFFFFFFFF
  offset := 0
  irqBase := 0
  irqEnable := 0
  noInit := dt.noInit
  ngpio := widthOf dt.gpioWidth
  irqDomain := none
  clk := false

/-- The structure of the second channel, which gets neither `no_init` nor a clock. -/
def DeviceTree.secondChip (dt : DeviceTree) : XgpioInstance where
  gpioState := dt.doutDefault2.getD 0
  gpioDir := dt.triDefault2.getD 0xFFFFFFFF
  offset := channelOffset
  irqBase := 0
  irqEnable := 0
  noInit := false
  ngpio := widthOf dt.gpio2Width
  irqDomain := none
  clk := false

/-- The part of `xgpio_of_probe` for `xlnx,is-dual`, to the end of the function. -/
def probeSecond (dt : DeviceTree) : Xgpio ℤ := do
  let allocated ← kzalloc .second
  if allocated = false then return -enomem
  modify (·.update .second fun _ => dt.secondChip)
  let status ← xgpioIrqSetup dt .second
  if status ≠ 0 then errPmPut .second status
  else
    let status ← ofMmGpiochipAdd .second
    if status ≠ 0 then errPmPut .second status
    else
      pmRuntimePut
      return 0

/-- The part of `xgpio_of_probe` from the registration of the first channel on. -/
def probeRegister (dt : DeviceTree) : Xgpio ℤ := do
  let status ← clkPrepareEnable .first
  if status < 0 then return status
  pmRuntimeEnable
  let status ← ofMmGpiochipAdd .first
  if status ≠ 0 then errUnprepareClk .first status
  else
    let status ← xgpioIrqSetup dt .first
    if status ≠ 0 then errPmPut .first status
    else if dt.dual = true then probeSecond dt
    else
      pmRuntimePut
      return 0

def xgpioOfProbe (dt : DeviceTree) : Xgpio ℤ := do
  let allocated ← kzalloc .first
  if allocated = false then return -enomem
  modify (·.update .first fun _ => dt.firstChip)
  modify fun d => { d with drvdata := some .first }
  let clk ← clkGet
  match clk with
  | .ok () =>
    modify (·.update .first fun chip => { chip with clk := true })
    probeRegister dt
  | .error e =>
    -- without a clock the driver goes on
    if e ≠ -enoent ∧ e ≠ -eprobeDefer then return e
    modify (·.update .first fun chip => { chip with clk := false })
    probeRegister dt

section Wiring

/-- What the probe fixes of the structure of a channel. -/
structure ChannelWiring where
  offset : ℕ
  irqBase : ℤ
  ngpio : ℕ
  irqDomain : Option IrqDomain

def XgpioInstance.wiring (chip : XgpioInstance) : ChannelWiring :=
  ⟨chip.offset, chip.irqBase, chip.ngpio, chip.irqDomain⟩

/-- What the probe fixes for the interrupts. -/
structure Wiring where
  channel : Channel → ChannelWiring
  handlerData : ℕ → Option Channel
  chainedHandler : ℕ → Bool

def GpioMem.wiring (d : GpioMem) : Wiring :=
  ⟨fun c => (d.chip c).wiring, d.handlerData, d.chainedHandler⟩

/-- A channel whose domain maps its pins to the numbers from `irq_base` on. -/
structure ChannelWiring.Ready (w : ChannelWiring) (c : Channel) : Prop where
  offset : w.offset = c.offset
  irqDomain : w.irqDomain = some ⟨w.ngpio, w.irqBase⟩

def lastChannel (dual : Bool) : Channel := if dual = true then .second else .first

structure Wired (dual : Bool) (irq : ℕ) (w : Wiring) : Prop where
  ready : ∀ c : Channel, c.Present dual → (w.channel c).Ready c
  handlerData : w.handlerData irq = some (lastChannel dual)
  chainedHandler : w.chainedHandler irq = true

/-- The numbers that `xgpio_to_irq` returns are those the handler calls. -/
theorem toIrq_of_ready {chip : XgpioInstance} {c : Channel} (h : chip.wiring.Ready c) {pin : ℕ}
    (hpin : pin < chip.ngpio) : xgpioToIrq chip pin = chip.irqBase + pin := by
  have hdomain : chip.irqDomain = some ⟨chip.ngpio, chip.irqBase⟩ := h.irqDomain
  rw [xgpioToIrq, hdomain]
  exact if_pos hpin

theorem Wired.placed {dual : Bool} {irq : ℕ} {d : GpioMem} (h : Wired dual irq d.wiring) :
    Placed dual d :=
  fun c hc => (h.ready c hc).offset

theorem wiring_update (d : GpioMem) (c : Channel) (f : XgpioInstance → XgpioInstance) :
    (d.update c f).wiring = { d.wiring with
      channel := fun c' => if c' = c then (f (d.chip c)).wiring else (d.chip c').wiring } := by
  refine congrArg (fun w => (⟨w, d.handlerData, d.chainedHandler⟩ : Wiring)) (funext fun c' => ?_)
  by_cases hcc : c' = c
  · subst hcc
    rw [GpioMem.update_self, if_pos rfl]
  · rw [GpioMem.update_of_ne _ _ hcc, if_neg hcc]

/-- A change of other fields of a structure. -/
theorem wiring_update_same (d : GpioMem) (c : Channel) {f : XgpioInstance → XgpioInstance}
    (hf : ∀ chip, (f chip).wiring = chip.wiring) : (d.update c f).wiring = d.wiring := by
  rw [wiring_update, hf]
  refine congrArg (fun w => (⟨w, d.handlerData, d.chainedHandler⟩ : Wiring)) (funext fun c' => ?_)
  by_cases hcc : c' = c
  · rw [if_pos hcc, hcc]
  · exact if_neg hcc

/-! Functions that leave the wiring alone. -/
section Preserved

theorem preserves_instanceOf (c : Channel) : Preserves GpioMem.wiring (instanceOf c) :=
  .bind .get fun _ => .pure _

theorem preserves_saveRegs (c : Channel) : Preserves GpioMem.wiring (xgpioSaveRegs c) := by
  refine .bind (preserves_instanceOf c) fun chip => .ite ?_ ?_
  · refine .bind (.port _) fun state => .bind (.modify fun d => ?_) fun _ =>
      .bind (.port _) fun dir => .modify fun d => ?_
    · exact wiring_update_same d c fun _ => rfl
    · exact wiring_update_same d c fun _ => rfl
  · exact .bind (.port _) fun _ => .port _

theorem preserves_clkPrepareEnable (c : Channel) :
    Preserves GpioMem.wiring (clkPrepareEnable c) := by
  refine .bind (preserves_instanceOf c) fun chip => .ite (.pure _) ?_
  refine .bind (.port _) fun status => .ite ?_ (.pure _)
  exact .bind (.modify fun _ => rfl) fun _ => .pure _

theorem preserves_gpiochipAdd (c : Channel) : Preserves GpioMem.wiring (ofMmGpiochipAdd c) := by
  refine .bind (.port _) fun mapped => .ite (.pure _) ?_
  refine .bind (preserves_saveRegs c) fun _ => .bind (.port _) fun status => ?_
  refine .ite ?_ (.pure _)
  exact .bind (.modify fun _ => rfl) fun _ => .pure _

theorem preserves_setChipData (irq : ℤ) (c : Channel) :
    Preserves GpioMem.wiring (irqSetChipData irq c) :=
  .modify fun _ => rfl

theorem preserves_irqMask (c : Channel) (irq : ℤ) :
    Preserves GpioMem.wiring (xgpioIrqMask c irq) := by
  refine .bind (preserves_instanceOf c) fun chip => .bind (.modify fun d => ?_) fun _ =>
    .bind (preserves_instanceOf c) fun chip => .ite ?_ (.pure _)
  · exact wiring_update_same d c fun _ => rfl
  · refine .bind (.port _) fun temp => .bind (.port _) fun _ => .bind (.port _) fun temp => ?_
    exact .ite (.port _) (.pure _)

theorem preserves_irqUnmask (c : Channel) (irq : ℤ) :
    Preserves GpioMem.wiring (xgpioIrqUnmask c irq) := by
  refine .bind (preserves_instanceOf c) fun chip => .bind ?_ fun _ =>
    .bind (.modify fun d => ?_) fun _ => .bind (preserves_instanceOf c) fun chip =>
    .ite ?_ (.pure _)
  · refine .bind (.modify fun d => ?_) fun _ => .bind (preserves_instanceOf c) fun _ => .port _
    exact wiring_update_same d c fun _ => rfl
  · exact wiring_update_same d c fun _ => rfl
  · exact .bind (.port _) fun temp => .bind (.port _) fun _ => .port _

end Preserved

variable {dt : DeviceTree} {c : Channel} {s t : Sys GpioRegs}

namespace Wiring

def withBase (w : Wiring) (c : Channel) (base : ℤ) : Wiring :=
  { w with channel := fun c' => if c' = c then
      { w.channel c with irqBase := base, irqDomain := some ⟨(w.channel c).ngpio, base⟩ }
    else w.channel c' }

def install (w : Wiring) (irq : ℕ) (c : Channel) : Wiring where
  channel := w.channel
  handlerData := fun irq' => if irq' = irq then some c else w.handlerData irq'
  chainedHandler := fun irq' => if irq' = irq then true else w.chainedHandler irq'

end Wiring

theorem wiring_withBase (d : GpioMem) (c : Channel) (base : ℤ) :
    ((d.update c (·.withIrq base)).update c (·.withDomain ⟨(d.chip c).ngpio, base⟩)).wiring =
      d.wiring.withBase c base := by
  rw [wiring_update, wiring_update, GpioMem.update_self]
  refine congrArg (fun w => (⟨w, d.handlerData, d.chainedHandler⟩ : Wiring)) (funext fun c' => ?_)
  by_cases hcc : c' = c
  · rw [if_pos hcc, if_pos hcc]
    rfl
  · rw [if_neg hcc, if_neg hcc, GpioMem.update_of_ne _ _ hcc]
    rfl

/-- A successful `xgpio_irq_setup` with an interrupt. -/
theorem wiring_irqSetup (hirq : dt.irq.1 ≠ 0)
    (h : Exec (withMemory gpioCore) (xgpioIrqSetup dt c) s 0 t) :
    ∃ base, t.mem.wiring = (s.mem.wiring.withBase c base).install dt.irq.2 c := by
  simp only [xgpioIrqSetup, exec_bind_iff, exec_ite, exec_instanceOf, exec_modify, exec_pure,
    hirq, false_and, false_or, not_false_eq_true, true_and] at h
  obtain ⟨_, _, ⟨rfl, rfl⟩, base, u, halloc, _, _, rfl, h⟩ := h
  obtain ⟨_, hneg, -⟩ | ⟨-, _, _, rfl, _, _, ⟨rfl, rfl⟩, _, v, hpins, _, _, hdata, _, _, hchain,
    -, rfl⟩ := h
  · exact absurd hneg (by decide)
  · simp only [irqAllocDescs, irqSetHandlerData, irqSetChainedHandler, exec_port,
      exec_modify] at halloc hdata hchain
    obtain ⟨e, -, rfl⟩ := halloc
    subst hdata hchain
    have hkeep := (Preserves.forM _ fun pin => preserves_setChipData _ c).exec hpins
    refine ⟨base, ?_⟩
    change v.mem.wiring.install dt.irq.2 c = _
    rw [hkeep]
    exact congrArg (·.install dt.irq.2 c) (wiring_withBase _ c base)

/-! The labels return the status they were reached with. -/

theorem errUnprepareClk_status {status x : ℤ}
    (h : Exec (withMemory gpioCore) (errUnprepareClk c status) s x t) : x = status := by
  simp only [errUnprepareClk, exec_bind_iff, exec_pure] at h
  obtain ⟨_, _, -, _, _, -, rfl, -⟩ := h
  rfl

theorem errPmPut_status {status x : ℤ}
    (h : Exec (withMemory gpioCore) (errPmPut c status) s x t) : x = status := by
  obtain ⟨_, _, -, h⟩ := (exec_bind_iff _ _ _).mp h
  exact errUnprepareClk_status h

/-- The second channel of a successful probe. -/
theorem wiring_probeSecond (hirq : dt.irq.1 ≠ 0)
    (h : Exec (withMemory gpioCore) (probeSecond dt) s 0 t) :
    ∃ base, t.mem.wiring =
      ((s.mem.update .second fun _ => dt.secondChip).wiring.withBase .second base).install
        dt.irq.2 .second := by
  simp only [probeSecond, exec_bind_iff, exec_ite, exec_modify, exec_pure] at h
  obtain ⟨_, u, halloc, ⟨_, hfail, -⟩ | ⟨-, _, _, rfl, status, v, hsetup, h⟩⟩ := h
  · exact absurd hfail (by decide)
  · obtain ⟨hstatus, herr⟩ | ⟨hok, status', w, hadd, h⟩ := h
    · exact absurd (errPmPut_status herr).symm hstatus
    · obtain ⟨hstatus, herr⟩ | ⟨-, _, _, hput, -, rfl⟩ := h
      · exact absurd (errPmPut_status herr).symm hstatus
      · obtain rfl := not_not.mp hok
        simp only [kzalloc, exec_port] at halloc
        obtain ⟨e, -, rfl⟩ := halloc
        obtain ⟨base, hbase⟩ := wiring_irqSetup hirq hsetup
        refine ⟨base, ?_⟩
        simp only [pmRuntimePut, exec_modify] at hput
        subst hput
        change w.mem.wiring = _
        rw [(preserves_gpiochipAdd .second).exec hadd, hbase]
        rfl

theorem Wiring.ready_withBase {w : Wiring} (h : (w.channel c).offset = c.offset) (base : ℤ) :
    ((w.withBase c base).channel c).Ready c := by
  have hchannel : (w.withBase c base).channel c =
      { w.channel c with irqBase := base, irqDomain := some ⟨(w.channel c).ngpio, base⟩ } :=
    if_pos rfl
  rw [hchannel]
  exact ⟨h, rfl⟩

theorem wired_single {w : Wiring} (h : (w.channel .first).offset = 0) (irq : ℕ) (base : ℤ) :
    Wired false irq ((w.withBase .first base).install irq .first) where
  ready := by
    intro c hc
    cases c with
    | first => exact Wiring.ready_withBase (c := .first) h base
    | second => exact absurd hc Bool.false_ne_true
  handlerData := if_pos rfl
  chainedHandler := if_pos rfl

/-- The set-up of the second channel replaces the handler data of the first. -/
theorem wired_dual {w : Wiring} (hfirst : (w.channel .first).Ready .first)
    (hsecond : (w.channel .second).offset = channelOffset) (irq : ℕ) (base : ℤ) :
    Wired true irq ((w.withBase .second base).install irq .second) where
  ready := by
    intro c _
    cases c with
    | first => exact hfirst
    | second => exact Wiring.ready_withBase (c := .second) hsecond base
  handlerData := if_pos rfl
  chainedHandler := if_pos rfl

theorem wired_probeRegister (hirq : dt.irq.1 ≠ 0) (hoffset : (s.mem.chip .first).offset = 0)
    (h : Exec (withMemory gpioCore) (probeRegister dt) s 0 t) :
    Wired dt.dual dt.irq.2 t.mem.wiring := by
  simp only [probeRegister, exec_bind_iff, exec_ite, exec_pure] at h
  obtain ⟨status, u, hclk, ⟨hneg, rfl, -⟩ | ⟨-, _, v, hpm, status', w, hadd, h⟩⟩ := h
  · exact absurd hneg (by decide)
  obtain ⟨hstatus, herr⟩ | ⟨-, status'', x, hsetup, h⟩ := h
  · exact absurd (errUnprepareClk_status herr).symm hstatus
  obtain ⟨hstatus, herr⟩ | ⟨hok, h⟩ := h
  · exact absurd (errPmPut_status herr).symm hstatus
  obtain rfl := not_not.mp hok
  simp only [pmRuntimeEnable, exec_modify] at hpm
  subst hpm
  obtain ⟨base, hbase⟩ := wiring_irqSetup hirq hsetup
  have hkeep : w.mem.wiring = s.mem.wiring := by
    rw [(preserves_gpiochipAdd .first).exec hadd, ← (preserves_clkPrepareEnable .first).exec hclk]
    rfl
  rw [hkeep] at hbase
  have hwired := wired_single (w := s.mem.wiring) hoffset dt.irq.2 base
  rw [← hbase] at hwired
  obtain ⟨hdual, hrun⟩ | ⟨hdual, _, _, hput, -, rfl⟩ := h
  · obtain ⟨base', hbase'⟩ := wiring_probeSecond hirq hrun
    have hsecond : (dt.secondChip.wiring).offset = channelOffset := rfl
    rw [hbase', hdual]
    refine wired_dual ?_ hsecond dt.irq.2 base'
    exact hwired.ready .first trivial
  · rw [Bool.not_eq_true] at hdual
    simp only [pmRuntimePut, exec_modify] at hput
    subst hput
    rw [hdual]
    exact hwired

theorem clkGet_error {e : ℤ} (h : Exec (withMemory gpioCore) clkGet s (.error e) t) : e < 0 := by
  obtain ⟨_, ⟨k, hk⟩, -⟩ := (exec_port (R := Port.Res) .clkGet _).mp h
  obtain ⟨hanswer, -⟩ := Prod.mk.inj (Option.some.inj hk)
  cases hclk : k.clkError with
  | none => simp [hclk] at hanswer
  | some n =>
    have he : -(n : ℤ) - 1 = e := by simpa [hclk] using hanswer
    omega

/-- A probe that succeeds wires both channels, with the data of one for the handler. -/
theorem wired_of_probe (hirq : dt.irq.1 ≠ 0)
    (h : Exec (withMemory gpioCore) (xgpioOfProbe dt) s 0 t) :
    Wired dt.dual dt.irq.2 t.mem.wiring := by
  simp only [xgpioOfProbe, exec_bind_iff, exec_ite, exec_modify, exec_pure] at h
  obtain ⟨_, u, halloc, ⟨_, hfail, -⟩ | ⟨-, _, _, rfl, _, _, rfl, clk, v, hclk, h⟩⟩ := h
  · exact absurd hfail (by decide)
  have hoffset : (v.mem.chip .first).offset = 0 := by
    obtain ⟨e, -, rfl⟩ := (exec_port (R := Port.Res) .clkGet _).mp hclk
    rfl
  cases clk with
  | ok _ =>
    simp only [exec_bind_iff, exec_modify] at h
    obtain ⟨_, _, rfl, h⟩ := h
    refine wired_probeRegister hirq ?_ h
    exact hoffset
  | error e =>
    simp only [exec_bind_iff, exec_ite, exec_modify, exec_pure] at h
    obtain ⟨-, hreturn, -⟩ | ⟨-, _, _, rfl, h⟩ := h
    · exact absurd (clkGet_error hclk) (by omega)
    · refine wired_probeRegister hirq ?_ h
      exact hoffset

end Wiring

end PynqPrio.Gpio
