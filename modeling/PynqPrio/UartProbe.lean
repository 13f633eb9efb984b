import PynqPrio.UartDriver

/-!
# The probe of the UART driver

`ulite_get_id`, `ulite_probe` and `ulite_remove` with their error paths. The device tree
is data, and so is the list of its aliases; the kernel functions that can fail are ports.
Whether the console is built in is an option.
-/
namespace PynqPrio.Uart
open Programs Programs.Driver

structure PlatformDevice where
  portNumber : Option (BitVec 32)
  pdevId : ℤ
  serialAlias : Option ℕ

/-- What `of_alias_get_alias_list` answers: a status, and the identifiers in the aliases of
the devices that the driver is for. -/
structure AliasList where
  status : ℤ
  bits : ℕ → Bool

/-! Error codes. -/
def enoent : ℤ := 2
def enxio : ℤ := 6
def enomem : ℤ := 12
def enodev : ℤ := 19
def einval : ℤ := 22

def maxUartInstances : ℕ := 256

def s32 (x : BitVec 32) : ℤ := x.toInt

/-- `port-number`, or else the identifier of the platform device. -/
def PlatformDevice.requestedId (pdev : PlatformDevice) : ℤ :=
  match pdev.portNumber with
  | some n => s32 n
  | none => pdev.pdevId

def ofAliasGetId (pdev : PlatformDevice) : ℤ :=
  match pdev.serialAlias with
  | some n => n
  | none => -enodev

/-- The first clear bit from `start` on, or else `size`. -/
def findNextZeroBit (bitmap : ℕ → Bool) (size start : ℕ) : ℕ :=
  ((List.range size).find? fun i => decide (start ≤ i) && !bitmap i).getD size

def withIds (f : IdMaps → IdMaps) : Ulite Unit := modify fun d => { d with ids := f d.ids }

def testAndSetBit (nr : ℕ) : Ulite Bool := do
  let d ← get
  withIds fun ids => { ids with bitmap := Function.update ids.bitmap nr true }
  return d.ids.bitmap nr

/-- The array has `MAX_UART_INSTANCES` bits; what a number beyond them clears is not part of
it. -/
def clearBit (nr : ℤ) : Ulite Unit := do
  withIds fun ids => { ids with bitmap := Function.update ids.bitmap nr.toNat false }
  note (.clearBit nr)

/-- The list of aliases is read once. -/
def initAliasBitmap (aliases : AliasList) : Ulite ℤ := do
  let d ← get
  if d.ids.aliasBitmapInitialized = true then return 0
  else do
    withIds fun ids => { ids with aliasBitmap := aliases.bits }
    if aliases.status ≠ 0 then return aliases.status
    else do
      withIds fun ids => { ids with aliasBitmapInitialized := true }
      return 0

def searchFreeId : Ulite ℤ :=
  Prog.iterate (fun id : ℕ => do
    let d ← get
    let id := findNextZeroBit d.ids.bitmap maxUartInstances id
    if id = maxUartInstances then return .inr (-einval)
    else do
      let taken ← testAndSetBit id
      return if taken = true then .inl (id + 1) else .inr (id : ℤ)) 0

def uliteGetId (aliases : AliasList) (pdev : PlatformDevice) : Ulite ℤ := do
  let ret ← initAliasBitmap aliases
  if ret ≠ 0 then return ret
  else do
    withIds fun ids => { ids with
      bitmap := fun i => ids.bitmap i || (decide (i < maxUartInstances) && ids.aliasBitmap i) }
    let id := if pdev.requestedId < 0 then ofAliasGetId pdev else pdev.requestedId
    if id < 0 then searchFreeId
    else return id

/-! Functions of the kernel. -/
def kzalloc : Ulite Bool := port (P := Port) .kzalloc
def kasprintf : Ulite Bool := port (P := Port) .kasprintf
def platformGetResource : Ulite Bool := port (P := Port) .platformGetResource
def platformGetIrq : Ulite ℤ := port (P := Port) .platformGetIrq
def clkGet : Ulite (Except ℤ Unit) := port (P := Port) .clkGet
def consoleEnabled : Ulite Bool := port (P := Port) .consoleEnabled
def uartAddOnePort : Ulite ℤ := port (P := Port) .uartAddOnePort
def uartRemoveOnePort : Ulite ℤ := port (P := Port) .uartRemoveOnePort

def uartRegisterDriver : Ulite ℤ := do
  let ret ← (port (P := Port) .uartRegisterDriver : Ulite ℤ)
  onlyIf (0 ≤ ret) (modify fun d => { d with driverRegistered := true })
  return ret

/-- The pointer in `pdata`, which may be `NULL` still. -/
def uartUnregisterDriver : Ulite Unit := do
  let d ← get
  note (.unregisterDriver d.uliteUartDriver)
  onlyIf (d.uliteUartDriver = true) (modify fun d => { d with driverRegistered := false })

def clkPrepareEnable : Ulite ℤ := do
  let d ← get
  if d.clk = false then return 0
  else do
    let ret ← (port (P := Port) .clkPrepareEnable : Ulite ℤ)
    onlyIf (ret = 0) (modify fun d => { d.enabled with clkPrepared := d.clkPrepared + 1 })
    return ret

def clkUnprepare : Ulite Unit := do
  let d ← get
  onlyIf (d.clk = true) (modify fun d => { d with clkPrepared := d.clkPrepared - 1 })

def clkDisableUnprepare : Ulite Unit := do
  clkDisable
  clkUnprepare

/-- `pm_runtime_use_autosuspend`, `pm_runtime_set_active` and `pm_runtime_enable`. -/
def pmRuntimeSetup : Ulite Unit :=
  modify fun d => { d with pmAutosuspend := true, pmActive := true, pmEnabled := true }

/-- `pm_runtime_disable`, `pm_runtime_set_suspended` and `pm_runtime_dont_use_autosuspend`. -/
def pmRuntimeTeardown : Ulite Unit :=
  modify fun d => { d with pmEnabled := false, pmActive := false, pmAutosuspend := false }

def uliteAssign (console : Bool) : Ulite ℤ := do
  let allocated ← kzalloc
  if allocated = false then return -enomem
  else do
    modify fun d => { d with drvdata := true }
    let d ← get
    onlyIf (console = true ∧ d.consolePort = .null)
      (modify fun d => { d with consolePort := .thisPort })
    let rc ← uartAddOnePort
    if rc ≠ 0 then do
      modify fun d => { d with drvdata := false }
      return rc
    else if console = true then do
      let d ← get
      let enabled ← consoleEnabled
      onlyIf (d.consolePort = .thisPort ∧ enabled = false)
        (modify fun d => { d with consolePort := .null })
      return 0
    else return 0

def uliteRelease : Ulite ℤ := do
  let d ← get
  if d.drvdata = true then do
    let rc ← uartRemoveOnePort
    modify fun d => { d with drvdata := false }
    return rc
  else return 0

def errOutId (ret : ℤ) : Ulite ℤ := do
  let d ← get
  clearBit (d.id.getD 0)
  return ret

def errOutUnregisterDriver (ret : ℤ) : Ulite ℤ := do
  uartUnregisterDriver
  errOutId ret

def errOutClkDisable (ret : ℤ) : Ulite ℤ := do
  clkDisableUnprepare
  pmRuntimeTeardown
  errOutUnregisterDriver ret

/-- The part of `ulite_probe` from `clk_prepare_enable` on. -/
def probeClocked (console : Bool) : Ulite ℤ := do
  let ret ← clkPrepareEnable
  if ret ≠ 0 then errOutUnregisterDriver ret
  else do
    pmRuntimeSetup
    modify fun d => { d with uliteUartDriver := true }
    let ret ← uliteAssign console
    if ret < 0 then errOutClkDisable ret
    else return 0

/-- The part of `ulite_probe` from `platform_get_resource` on. -/
def probeRegistered (console : Bool) : Ulite ℤ := do
  let res ← platformGetResource
  if res = false then errOutUnregisterDriver (-enodev)
  else do
    let irq ← platformGetIrq
    if irq ≤ 0 then errOutUnregisterDriver (-enxio)
    else do
      let clk ← clkGet
      match clk with
      | .ok () =>
        modify fun d => { d with clk := true }
        probeClocked console
      | .error e =>
        if e ≠ -enoent then errOutUnregisterDriver e
        else do
          modify fun d => { d with clk := false }
          probeClocked console

/-- The console has a structure of its own. -/
def consoleAlloc (console : Bool) : Ulite Bool :=
  if console = true then kzalloc else return true

/-- The part of `ulite_probe` after the identifier has been found. -/
def probeNamed (console : Bool) : Ulite ℤ := do
  let named ← kasprintf
  if named = false then errOutId (-enomem)
  else do
    let allocated ← consoleAlloc console
    if allocated = false then errOutId (-enomem)
    else do
      let ret ← uartRegisterDriver
      if ret < 0 then errOutId ret
      else probeRegistered console

def uliteProbe (console : Bool) (aliases : AliasList) (pdev : PlatformDevice) : Ulite ℤ := do
  let allocated ← kzalloc
  if allocated = false then return -enomem
  else do
    let allocated ← kzalloc
    if allocated = false then return -enomem
    else do
      let id ← uliteGetId aliases pdev
      modify fun d => { d with id := some id }
      if id < 0 then return id
      else probeNamed console

def uliteRemove (console : Bool) : Ulite ℤ := do
  clkUnprepare
  let rc ← uliteRelease
  let d ← get
  clearBit (d.id.getD 0)
  onlyIf (console = true ∧ d.consolePort = .thisPort)
    (modify fun d => { d with consolePort := .null })
  uartUnregisterDriver
  pmRuntimeTeardown
  return rc

end PynqPrio.Uart
