import PynqPrio.IicEndianness
import PynqPrio.LabelledRuns
import PynqPrio.ProofOutlines

/-!
# Power management of the I2C driver

The probe prepares and enables the clock, `xiic_xfer` and `xiic_i2c_remove` take references
on the device, and the PM core runs the two callbacks of the driver. It may do so between
any two calls that the driver makes into the kernel.
-/
namespace PynqPrio.Iic
open Programs Programs.Driver Programs.Prog

section Callbacks

inductive ClkOp where
  | prepareEnable | enable | disable | disableUnprepare

abbrev ClkOp.Res : ClkOp → Type
  | .prepareEnable | .enable => ℤ
  | .disable | .disableUnprepare => Unit

/-- A callback of the driver, which only uses the clock. -/
abbrev Callback := Prog ClkOp ClkOp.Res

def clkEnable : Callback ℤ := perform ClkOp.enable

def clkDisable : Callback Unit := perform ClkOp.disable

def cdnsI2cRuntimeSuspend : Callback ℤ := do
  clkDisable
  return 0

def cdnsI2cRuntimeResume : Callback ℤ := do
  let ret ← clkEnable
  if ret ≠ 0 then return ret
  return 0

/-- The counts of a clock. A call too many makes one of them negative. -/
@[ext] structure ClkCounts where
  prepared : ℤ
  enabled : ℤ

namespace ClkCounts

/-- An operation on the clock, with the error number it has if it can fail. -/
def answer (errno : ℕ) (s : ClkCounts) : (o : ClkOp) → Option (o.Res × ClkCounts)
  | .prepareEnable =>
    some (-(errno : ℤ), if errno = 0 then ⟨s.prepared + 1, s.enabled + 1⟩ else s)
  | .enable => some (-(errno : ℤ), if errno = 0 then ⟨s.prepared, s.enabled + 1⟩ else s)
  | .disable => some ((), ⟨s.prepared, s.enabled - 1⟩)
  | .disableUnprepare => some ((), ⟨s.prepared - 1, s.enabled - 1⟩)

def call (s : ClkCounts) (errno : ℕ) (p : Callback ℤ) : Option (ℤ × ClkCounts) :=
  run (answer errno) 0 p s

variable (s : ClkCounts)

theorem call_suspend : s.call 0 cdnsI2cRuntimeSuspend = some (0, ⟨s.prepared, s.enabled - 1⟩) :=
  rfl

theorem call_resume (errno : ℕ) : s.call errno cdnsI2cRuntimeResume =
    some (-(errno : ℤ), if errno = 0 then ⟨s.prepared, s.enabled + 1⟩ else s) := by
  cases errno with
  | zero => rfl
  | succ n => rfl

end ClkCounts

end Callbacks

section PmCore

/-- `unset` is the suspended status of a device of which no callback has run. -/
inductive RpmStatus where
  | unset | active | suspended
  deriving DecidableEq

structure Power where
  clk : ClkCounts
  usage : ℤ
  pmEnabled : Bool
  status : RpmStatus

inductive PlatformOp where
  | reg (p : Port)
  | devmKzalloc
  | devmIoremapResource
  | platformGetIrq
  | devmClkGet
  | devmRequestThreadedIrq
  | i2cAddAdapter
  | i2cDelAdapter
  | waitEvent
  | pmRuntimeSetAutosuspendDelay
  | pmRuntimeUseAutosuspend
  | pmRuntimeDontUseAutosuspend
  | pmRuntimeMarkLastBusy

abbrev PlatformOp.Res : PlatformOp → Type
  | .reg p => Port.Res p
  | .devmKzalloc | .waitEvent => Bool
  | .devmIoremapResource | .platformGetIrq | .devmClkGet | .devmRequestThreadedIrq
  | .i2cAddAdapter => ℤ
  | .i2cDelAdapter | .pmRuntimeSetAutosuspendDelay | .pmRuntimeUseAutosuspend
  | .pmRuntimeDontUseAutosuspend | .pmRuntimeMarkLastBusy => Unit

inductive PowerOp where
  | clkPrepareEnable
  | clkDisableUnprepare
  | pmRuntimeSetActive
  | pmRuntimeSetSuspended
  | pmRuntimeEnable
  | pmRuntimeDisable
  | pmRuntimeGetSync
  | pmRuntimePutSync
  | pmRuntimePutAutosuspend
  deriving DecidableEq

abbrev PowerOp.Res : PowerOp → Type
  | .clkPrepareEnable | .pmRuntimeGetSync => ℤ
  | .clkDisableUnprepare | .pmRuntimeSetActive | .pmRuntimeSetSuspended | .pmRuntimeEnable
  | .pmRuntimeDisable | .pmRuntimePutSync | .pmRuntimePutAutosuspend => Unit

inductive KernelOp where
  | platform (o : PlatformOp)
  | power (o : PowerOp)

abbrev KernelOp.Res : KernelOp → Type
  | .platform o => o.Res
  | .power o => o.Res

/-- What the kernel and the device decide in an operation. -/
structure Kernel where
  errno : ℕ
  result : ℤ
  flag : Bool
  word : BitVec 32

def Kernel.answer (k : Kernel) : (o : PlatformOp) → o.Res
  | .reg (.getreg8 _) => k.word.setWidth 8
  | .reg (.getreg32 _) => k.word
  | .reg (.setreg8 ..) | .reg (.setreg16 ..) | .reg (.setreg32 ..) => ()
  | .devmKzalloc | .waitEvent => k.flag
  | .devmIoremapResource | .platformGetIrq | .devmClkGet | .devmRequestThreadedIrq
  | .i2cAddAdapter => k.result
  | .i2cDelAdapter | .pmRuntimeSetAutosuspendDelay | .pmRuntimeUseAutosuspend
  | .pmRuntimeDontUseAutosuspend | .pmRuntimeMarkLastBusy => ()

namespace Power

/-- The PM core suspends an active device that is not in use. -/
def suspend (s : Power) : Option Power :=
  if s.pmEnabled = true ∧ s.status = .active ∧ s.usage = 0 then
    (s.clk.call 0 cdnsI2cRuntimeSuspend).map fun r : ℤ × ClkCounts =>
      { s with clk := r.2, status := if r.1 = 0 then .suspended else .active }
  else none

/-- The PM core resumes a device that is not active. -/
def resume (s : Power) (errno : ℕ) : Option (ℤ × Power) :=
  if s.pmEnabled = true ∧ s.status ≠ .active then
    (s.clk.call errno cdnsI2cRuntimeResume).map fun r : ℤ × ClkCounts =>
      (r.1, { s with clk := r.2, status := if r.1 = 0 then .active else s.status })
  else none

def used (s : Power) (n : ℤ) : Power := { s with usage := s.usage + n }

/-- The status is only set while runtime PM is disabled. -/
def marked (s : Power) (status : RpmStatus) : Power :=
  if s.pmEnabled = true then s else { s with status := status }

/-- An operation on the clock by the driver. -/
def clocked (s : Power) (errno : ℕ) (o : ClkOp) : Option (o.Res × Power) :=
  (s.clk.answer errno o).map fun r => (r.1, { s with clk := r.2 })

/-- `pm_runtime_get_sync` may refuse to resume a device, and `pm_runtime_put_sync` may suspend
one. -/
def answer (s : Power) (k : Kernel) : (o : PowerOp) → Option (o.Res × Power)
  | .clkPrepareEnable => s.clocked k.errno .prepareEnable
  | .clkDisableUnprepare => s.clocked 0 .disableUnprepare
  | .pmRuntimeSetActive => some ((), s.marked .active)
  | .pmRuntimeSetSuspended => some ((), s.marked .unset)
  | .pmRuntimeEnable => some ((), { s with pmEnabled := true })
  | .pmRuntimeDisable => some ((), { s with pmEnabled := false })
  | .pmRuntimeGetSync =>
    if s.status = .active then some (1, s.used 1)
    else if k.flag = true then (s.used 1).resume k.errno
    else some (-(k.errno : ℤ) - 1, s.used 1)
  | .pmRuntimePutSync =>
    if k.flag = true then (s.used (-1)).suspend.map fun t => ((), t) else some ((), s.used (-1))
  | .pmRuntimePutAutosuspend => some ((), s.used (-1))

def kernelAnswer (s : Power) (k : Kernel) : (o : KernelOp) → Option (o.Res × Power)
  | .platform o => some (k.answer o, s)
  | .power o => s.answer k o

end Power

def pmCore : Machine KernelOp KernelOp.Res Power := ofAnswer Power.kernelAnswer

end PmCore

section Functions

/-- Functions of the driver over the kernel. -/
abbrev XiicPm := Driver XiicI2c Event KernelOp.Res

def platform (o : PlatformOp) : XiicPm o.Res := port (P := KernelOp) (.platform o)
def power (o : PowerOp) : XiicPm o.Res := port (P := KernelOp) (.power o)

def register (p : Port) : XiicPm (Port.Res p) := platform (.reg p)

/-- The driver accesses its registers. -/
def onRegisters {α : Type} (q : Xiic α) : XiicPm α := lower register q

def devmKzalloc : XiicPm Bool := platform .devmKzalloc
def devmIoremapResource : XiicPm ℤ := platform .devmIoremapResource
def platformGetIrq : XiicPm ℤ := platform .platformGetIrq
def devmClkGet : XiicPm ℤ := platform .devmClkGet
def devmRequestThreadedIrq : XiicPm ℤ := platform .devmRequestThreadedIrq
def i2cAddAdapter : XiicPm ℤ := platform .i2cAddAdapter
def i2cDelAdapter : XiicPm Unit := platform .i2cDelAdapter
def clkPrepareEnable : XiicPm ℤ := power .clkPrepareEnable
def clkDisableUnprepare : XiicPm Unit := power .clkDisableUnprepare
def pmRuntimeSetAutosuspendDelay : XiicPm Unit :=
  platform .pmRuntimeSetAutosuspendDelay
def pmRuntimeUseAutosuspend : XiicPm Unit := platform .pmRuntimeUseAutosuspend
def pmRuntimeDontUseAutosuspend : XiicPm Unit := platform .pmRuntimeDontUseAutosuspend
def pmRuntimeMarkLastBusy : XiicPm Unit := platform .pmRuntimeMarkLastBusy
def pmRuntimeSetActive : XiicPm Unit := power .pmRuntimeSetActive
def pmRuntimeSetSuspended : XiicPm Unit := power .pmRuntimeSetSuspended
def pmRuntimeEnable : XiicPm Unit := power .pmRuntimeEnable
def pmRuntimeDisable : XiicPm Unit := power .pmRuntimeDisable
def pmRuntimeGetSync : XiicPm ℤ := power .pmRuntimeGetSync
def pmRuntimePutSync : XiicPm Unit := power .pmRuntimePutSync
def pmRuntimePutAutosuspend : XiicPm Unit := power .pmRuntimePutAutosuspend

/-! Error codes. -/
def enomem : ℤ := 12
def ebusy : ℤ := 16
def etimedout : ℤ := 110

def xiicDeinit : Xiic Unit := do
  xiicSetreg32 .resetr resetMask
  let cr ← xiicGetreg8 .cr
  xiicSetreg8 .cr (cr &&& ~~~crEnableDeviceMask)

/-- The end of the wait, with the result that the state gives or without one. The interrupt
thread may run any number of times before. -/
def waitEventTimeout (num : ℕ) : XiicPm (Option ℤ) :=
  Prog.iterate (fun () => do
    let d ← get
    match xferResult d num with
    | some err => return .inr (some err)
    | none =>
      let interrupted ← platform .waitEvent
      if interrupted then
        onRegisters xiicProcess
        return .inl ()
      return .inr none) ()

/-- `xiic_xfer` between the two calls into runtime PM. -/
def xferBody (msgs : List I2cMsg) (bufs : ℕ → ℕ → BitVec 8) : XiicPm ℤ := do
  let busy ← onRegisters xiicBusy
  if busy then return -ebusy
  onRegisters (startTransfer msgs bufs)
  let result ← waitEventTimeout msgs.length
  match result with
  | some err => return err
  | none =>
    onRegisters timeoutCleanup
    return -etimedout

def xiicXfer (msgs : List I2cMsg) (bufs : ℕ → ℕ → BitVec 8) : XiicPm ℤ := do
  let err ← pmRuntimeGetSync
  if err < 0 then return err
  let err ← xferBody msgs bufs
  pmRuntimeMarkLastBusy
  pmRuntimePutAutosuspend
  return err

def errClkDis (ret : ℤ) : XiicPm ℤ := do
  pmRuntimeSetSuspended
  pmRuntimeDisable
  clkDisableUnprepare
  return ret

/-- The probe from the request of the interrupt on. -/
def probePowered : XiicPm ℤ := do
  let ret ← devmRequestThreadedIrq
  if ret < 0 then errClkDis ret
  else
    onRegisters detectEndianness
    onRegisters xiicReinit
    let ret ← i2cAddAdapter
    if ret ≠ 0 then
      onRegisters xiicDeinit
      errClkDis ret
    else return 0

/-- An error pointer is a negative number. -/
def xiicI2cProbe : XiicPm ℤ := do
  let i2c ← devmKzalloc
  if ¬i2c then return -enomem
  let base ← devmIoremapResource
  if base < 0 then return base
  let irq ← platformGetIrq
  if irq < 0 then return irq
  let clk ← devmClkGet
  if clk < 0 then return clk
  let ret ← clkPrepareEnable
  if ret ≠ 0 then return ret
  pmRuntimeSetAutosuspendDelay
  pmRuntimeUseAutosuspend
  pmRuntimeSetActive
  pmRuntimeEnable
  probePowered

def xiicI2cRemove : XiicPm ℤ := do
  i2cDelAdapter
  let ret ← pmRuntimeGetSync
  if ret < 0 then return ret
  onRegisters xiicDeinit
  pmRuntimePutSync
  clkDisableUnprepare
  pmRuntimeDisable
  pmRuntimeSetSuspended
  pmRuntimeDontUseAutosuspend
  return 0

end Functions

section System

/-- A function of the driver in progress, or the memory that the last one has left. -/
abbrev PmCall := Prog KernelOp KernelOp.Res (ℤ × XiicI2c)

/-- Transfers and the interrupt thread, and the removal. -/
inductive IicCall where
  | xfer (msgs : List I2cMsg) (bufs : ℕ → ℕ → BitVec 8)
  | process
  | remove

def IicCall.prog : IicCall → XiicPm ℤ
  | .xfer msgs bufs => xiicXfer msgs bufs
  | .process => do
    onRegisters xiicProcess
    return 0
  | .remove => xiicI2cRemove

inductive Stage where
  | probing | bound | calling | removing | gone
  deriving DecidableEq

def IicCall.stage : IicCall → Stage
  | .xfer .. | .process => .calling
  | .remove => .removing

/-- The stage when a function has got to `q`. -/
def Stage.next (stage : Stage) (q : PmCall) : Stage :=
  match stage, q with
  | .probing, .ret r => if r.1 = 0 then .bound else .gone
  | .calling, .ret _ => .bound
  | .removing, .ret _ => .gone
  | stage, _ => stage

/-- The device and the driver, with the counts of the clock before the probe and the usage
count at the start of the last function. -/
structure PmState where
  power : Power
  prog : PmCall
  stage : Stage
  before : ClkCounts
  found : ℤ

inductive PmLabel where
  | call (f : IicCall)
  | message
  | suspend
  | resume (errno : ℕ)

/-- A bound device without a function in progress gets a call, the function in progress
calls the kernel, or the PM core suspends or resumes the device. -/
def PmStep (s : PmState) (label : PmLabel) (t : PmState) : Prop :=
  match label with
  | .call f => s.stage = .bound ∧ ∃ r, s.prog = .ret r ∧ t = { s with
      prog := messages f.prog r.2, stage := f.stage, found := s.power.usage }
  | .message => ∃ q u, SmallStep pmCore s.prog s.power q u ∧
      t = { s with power := u, prog := q, stage := s.stage.next q }
  | .suspend => ∃ u, s.power.suspend = some u ∧ t = { s with power := u }
  | .resume errno => ∃ r, s.power.resume errno = some r ∧ t = { s with power := r.2 }

/-- A function that nothing interrupts does what it does on the kernel. -/
theorem exec_of_messages_alone {s t : PmState}
    (h : Relation.ReflTransGen (PmStep · .message ·) s t) {q : XiicPm ℤ} {d d' : XiicI2c} {ret : ℤ}
    (hcall : s.prog = messages q d) (hret : t.prog = .ret (ret, d')) (l : List Event) :
    ∃ l', Exec (withMemory pmCore) q ⟨d, l, s.power⟩ ret ⟨d', l', t.power⟩ := by
  have hsteps : SmallSteps pmCore s.prog s.power t.prog t.power := by
    clear hcall hret
    induction h using Relation.ReflTransGen.head_induction_on with
    | refl => exact .refl _ _
    | head hstep _ ih =>
      obtain ⟨q', u, hq', rfl⟩ := hstep
      exact .head hq' ih
  rw [hcall, hret] at hsteps
  exact exec_of_messages l (exec_iff_smallSteps.mpr hsteps)

structure PmStart (s : PmState) : Prop where
  prog : ∃ d, s.prog = messages xiicI2cProbe d
  stage : s.stage = .probing
  pmEnabled : s.power.pmEnabled = false
  status : s.power.status = .unset
  before : s.power.clk = s.before
  enabled : s.before.enabled = 0
  found : s.power.usage = s.found

/-- The usage count and the counts of the clock are right. -/
structure PowerRight (s : PmState) : Prop where
  usage : s.stage = .bound → s.power.usage = s.found
  active : s.stage = .bound ∨ s.stage = .calling →
    (s.power.clk.enabled = 1 ↔ s.power.status = .active)
  nonneg : 0 ≤ s.power.clk.enabled
  gone : s.stage = .gone → s.power.clk = s.before

/-- `pm_runtime_get_sync` gets the device active, it is active when the driver calls
`clk_disable_unprepare`, and it is not suspended after that. -/
def StaysPowered (s : PmState) (label : PmLabel) (t : PmState) : Prop :=
  match label with
  | .message => (s.prog.nextOp = some (.power .pmRuntimeGetSync) → t.power.status = .active) ∧
      (s.prog.nextOp = some (.power .clkDisableUnprepare) → s.power.status = .active)
  | .suspend => s.before.prepared < s.power.clk.prepared
  | .call _ | .resume _ => True

end System

end PynqPrio.Iic
