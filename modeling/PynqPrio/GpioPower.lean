import PynqPrio.GpioProbe
import PynqPrio.GpioDispatch
import PynqPrio.LabelledRuns

/-!
# Runtime PM of the GPIO driver

`xgpio_request` and `xgpio_free` move the usage count of the device, and the callbacks of
runtime PM switch its clock. The probe puts a reference that it has not got, so the count
is short by one for as long as the device is bound.
-/
namespace PynqPrio.Gpio
open Programs Programs.Driver Programs.Prog

namespace GpioMem

/-- `n` more enables of the clock. -/
@[simps] def enabledBy (d : GpioMem) (n : ℤ) : GpioMem := { d with clkEnabled := d.clkEnabled + n }

/-- The status that runtime PM keeps. -/
@[simps] def withActive (d : GpioMem) (active : Bool) : GpioMem := { d with pmActive := active }

@[simps] def referenced (d : GpioMem) : GpioMem :=
  { d with pmUsage := d.pmUsage + 1, pmIdle := false }

@[simps] def suspended (d : GpioMem) : GpioMem := { d with pmActive := false, pmIdle := false }

end GpioMem

/-! The clock functions do nothing for a `NULL` clock. -/
def clkEnable (c : Channel) : Xgpio ℤ := do
  let chip ← instanceOf c
  if chip.clk = false then return 0
  else do
    let status ← (port (P := Port) .clkEnable : Xgpio ℤ)
    onlyIf (status = 0) (modify (·.enabledBy 1))
    return status

def clkDisable (c : Channel) : Xgpio Unit := do
  let chip ← instanceOf c
  onlyIf (chip.clk = true) (modify (·.enabledBy (-1)))

/-- The data of the device is the structure of the first channel, once it has been probed. -/
def xgpioRuntimeSuspend : Xgpio ℤ := do
  let d ← get
  clkDisable (d.drvdata.getD .first)
  return 0

def xgpioRuntimeResume : Xgpio ℤ := do
  let d ← get
  clkEnable (d.drvdata.getD .first)

/-- The count is moved also when the resume fails. -/
def pmRuntimeGetSync : Xgpio ℤ := do
  modify GpioMem.referenced
  let d ← get
  if d.pmActive = true then return 1
  else do
    let ret ← xgpioRuntimeResume
    onlyIf (ret = 0) (modify (·.withActive true))
    return ret

/-- The pins of both channels have the same parent. -/
def xgpioRequest (_ : Channel) (_ : ℕ) : Xgpio ℤ := do
  let ret ← pmRuntimeGetSync
  return if ret < 0 then ret else 0

def xgpioFree (_ : Channel) (_ : ℕ) : Xgpio Unit := pmRuntimePut

section Usage

structure PowerState where
  sys : Sys GpioRegs
  requested : List (Channel × ℕ)
  failed : ℕ

inductive PowerLabel where
  | request (c : Channel) (pin : ℕ)
  | free (c : Channel) (pin : ℕ)
  | suspend

/-- A pin is freed for an earlier request; the device may be suspended once the count has
got to 0 and nobody has requested a pin since. -/
def PowerStep (s : PowerState) (label : PowerLabel) (t : PowerState) : Prop :=
  match label with
  | .request c pin => ∃ ret, Exec (withMemory gpioCore) (xgpioRequest c pin) s.sys ret t.sys ∧
      t.requested = (if ret = 0 then (c, pin) :: s.requested else s.requested) ∧
      t.failed = if ret = 0 then s.failed else s.failed + 1
  | .free c pin => (c, pin) ∈ s.requested ∧
      Exec (withMemory gpioCore) (xgpioFree c pin) s.sys () t.sys ∧
      t.requested = s.requested.erase (c, pin) ∧ t.failed = s.failed
  | .suspend => s.sys.mem.pmIdle = true ∧ s.sys.mem.pmActive = true ∧
      (∃ u, Exec (withMemory gpioCore) xgpioRuntimeSuspend s.sys 0 u ∧
        t.sys = u.withMem u.mem.suspended) ∧
      t.requested = s.requested ∧ t.failed = s.failed

structure PowerStart (dt : DeviceTree) (s : PowerState) : Prop where
  probed : ∃ s₀, s₀.mem.pmUsage = 0 ∧ Exec (withMemory gpioCore) (xgpioOfProbe dt) s₀ 0 s.sys
  requested : s.requested = []
  failed : s.failed = 0

/-- The count is that of the requested pins, and a clock is enabled as long as there is one. -/
structure UseRight (s : PowerState) : Prop where
  usage : s.sys.mem.pmUsage = s.requested.length
  clock : s.requested ≠ [] → (s.sys.mem.chip .first).clk = true → 0 < s.sys.mem.clkEnabled

/-- The count of a device: it lacks the reference that the probe has put, and has one for
each request that failed. -/
def UsageShort (s : PowerState) : Prop :=
  s.sys.mem.pmUsage = s.requested.length + s.failed - 1

variable {dt : DeviceTree} {c : Channel} {s t : PowerState} {u v : Sys GpioRegs}
  {label : PowerLabel}

theorem usage_saveRegs (c : Channel) : Preserves GpioMem.pmUsage (xgpioSaveRegs c) := by
  refine .bind (.bind .get fun _ => .pure _) fun chip => .ite ?_ ?_
  · exact .bind (.port _) fun _ => .bind (.modify fun _ => rfl) fun _ =>
      .bind (.port _) fun _ => .modify fun _ => rfl
  · exact .bind (.port _) fun _ => .port _

theorem usage_clkPrepareEnable (c : Channel) :
    Preserves GpioMem.pmUsage (clkPrepareEnable c) := by
  refine .bind (.bind .get fun _ => .pure _) fun chip => .ite (.pure _) ?_
  exact .bind (.port _) fun _ => .ite (.bind (.modify fun _ => rfl) fun _ => .pure _) (.pure _)

theorem usage_gpiochipAdd (c : Channel) : Preserves GpioMem.pmUsage (ofMmGpiochipAdd c) := by
  refine .bind (.port _) fun mapped => .ite (.pure _) ?_
  refine .bind (usage_saveRegs c) fun _ => .bind (.port _) fun _ => ?_
  exact .ite (.bind (.modify fun _ => rfl) fun _ => .pure _) (.pure _)

theorem usage_irqSetup (dt : DeviceTree) (c : Channel) :
    Preserves GpioMem.pmUsage (xgpioIrqSetup dt c) := by
  refine .ite (.pure _) <| .bind (.bind .get fun _ => .pure _) fun chip =>
    .bind (.port _) fun base => .bind (.modify fun _ => rfl) fun _ => .ite (.pure _) ?_
  exact .bind (.modify fun _ => rfl) fun _ => .bind (.bind .get fun _ => .pure _) fun _ =>
    .bind (.forM _ fun _ => .modify fun _ => rfl) fun _ => .bind (.modify fun _ => rfl) fun _ =>
    .bind (.modify fun _ => rfl) fun _ => .pure _

theorem usage_probeSecond (h : Exec (withMemory gpioCore) (probeSecond dt) u 0 v) :
    v.mem.pmUsage = u.mem.pmUsage - 1 := by
  simp only [probeSecond, exec_bind_iff, exec_ite, exec_modify, exec_pure] at h
  obtain ⟨_, w, halloc, ⟨_, hfail, -⟩ | ⟨-, _, _, rfl, status, x, hsetup, h⟩⟩ := h
  · exact absurd hfail (by decide)
  obtain ⟨hstatus, herr⟩ | ⟨-, status', y, hadd, h⟩ := h
  · exact absurd (errPmPut_status herr).symm hstatus
  obtain ⟨hstatus, herr⟩ | ⟨-, _, _, hput, -, rfl⟩ := h
  · exact absurd (errPmPut_status herr).symm hstatus
  have halloc := (Preserves.port (f := GpioMem.pmUsage) _).exec halloc
  simp only [pmRuntimePut, exec_modify] at hput
  rw [hput, Config.withMem_mem, (usage_gpiochipAdd .second).exec hadd,
    (usage_irqSetup dt .second).exec hsetup, ← halloc]
  rfl

theorem usage_probeRegister (h : Exec (withMemory gpioCore) (probeRegister dt) u 0 v) :
    v.mem.pmUsage = u.mem.pmUsage - 1 := by
  simp only [probeRegister, exec_bind_iff, exec_ite, exec_pure] at h
  obtain ⟨status, w, hclk, ⟨hneg, rfl, -⟩ | ⟨-, _, x, hpm, status', y, hadd, h⟩⟩ := h
  · exact absurd hneg (by decide)
  obtain ⟨hstatus, herr⟩ | ⟨-, status'', z, hsetup, h⟩ := h
  · exact absurd (errUnprepareClk_status herr).symm hstatus
  obtain ⟨hstatus, herr⟩ | ⟨-, h⟩ := h
  · exact absurd (errPmPut_status herr).symm hstatus
  simp only [pmRuntimeEnable, exec_modify] at hpm
  have hkeep : z.mem.pmUsage = u.mem.pmUsage := by
    rw [(usage_irqSetup dt .first).exec hsetup, (usage_gpiochipAdd .first).exec hadd, hpm,
      ← (usage_clkPrepareEnable .first).exec hclk]
    rfl
  obtain ⟨-, hrun⟩ | ⟨-, _, _, hput, -, rfl⟩ := h
  · rw [usage_probeSecond hrun, hkeep]
  · simp only [pmRuntimePut, exec_modify] at hput
    rw [hput, ← hkeep]
    rfl

/-- A successful probe puts a reference. -/
theorem usage_of_probe (h : Exec (withMemory gpioCore) (xgpioOfProbe dt) u 0 v) :
    v.mem.pmUsage = u.mem.pmUsage - 1 := by
  simp only [xgpioOfProbe, exec_bind_iff, exec_ite, exec_modify, exec_pure] at h
  obtain ⟨_, w, halloc, ⟨_, hfail, -⟩ | ⟨-, _, _, rfl, _, _, rfl, clk, x, hclk, h⟩⟩ := h
  · exact absurd hfail (by decide)
  have hkeep : x.mem.pmUsage = u.mem.pmUsage := by
    rw [(Preserves.port (f := GpioMem.pmUsage) _).exec hclk,
      ← (Preserves.port (f := GpioMem.pmUsage) _).exec halloc]
    rfl
  cases clk with
  | ok _ =>
    simp only [exec_bind_iff, exec_modify] at h
    obtain ⟨_, _, rfl, h⟩ := h
    rw [usage_probeRegister h, ← hkeep]
    rfl
  | error e =>
    simp only [exec_bind_iff, exec_ite, exec_modify, exec_pure] at h
    obtain ⟨-, hreturn, -⟩ | ⟨-, _, _, rfl, h⟩ := h
    · exact absurd (clkGet_error hclk) (by omega)
    · rw [usage_probeRegister h, ← hkeep]
      rfl

theorem usage_clkEnable (c : Channel) : Preserves GpioMem.pmUsage (clkEnable c) :=
  .bind (.bind .get fun _ => .pure _) fun _ => .ite (.pure _) <| .bind (.port _) fun _ =>
    .bind (.onlyIf (.modify fun _ => rfl)) fun _ => .pure _

/-- A request takes a reference, whether it succeeds or not. -/
theorem usage_request {ret : ℤ} {pin : ℕ}
    (h : Exec (withMemory gpioCore) (xgpioRequest c pin) u ret v) :
    v.mem.pmUsage = u.mem.pmUsage + 1 := by
  simp only [xgpioRequest, pmRuntimeGetSync, exec_bind_iff, exec_modify, exec_get, exec_ite,
    exec_pure] at h
  obtain ⟨r, _, ⟨_, _, rfl, _, w, ⟨rfl, rfl⟩, ⟨-, -, rfl⟩ | ⟨-, _, x, hresume, _, y, hactive, -, rfl⟩⟩,
    -, rfl⟩ := h
  · rfl
  have hresume' : Preserves GpioMem.pmUsage xgpioRuntimeResume :=
    .bind .get fun _ => usage_clkEnable _
  rw [exec_onlyIf_modify] at hactive
  have hkeep : v.mem.pmUsage = x.mem.pmUsage := by
    rw [hactive]
    split <;> rfl
  rw [hkeep, hresume'.exec hresume]
  rfl

theorem usage_suspend {ret : ℤ} (h : Exec (withMemory gpioCore) xgpioRuntimeSuspend u ret v) :
    v.mem.pmUsage = u.mem.pmUsage := by
  have hkeep : Preserves GpioMem.pmUsage xgpioRuntimeSuspend :=
    .bind .get fun _ => .bind (.bind (.bind .get fun _ => .pure _) fun _ =>
      .onlyIf (.modify fun _ => rfl)) fun _ => .pure _
  exact hkeep.exec h

theorem usageShort_step (hs : UsageShort s) (h : PowerStep s label t) : UsageShort t := by
  rw [UsageShort] at hs ⊢
  cases label with
  | request c pin =>
    obtain ⟨ret, hrun, hrequested, hfailed⟩ := h
    rw [usage_request hrun, hrequested, hfailed, hs]
    split
    · rw [List.length_cons]
      omega
    · omega
  | free c pin =>
    obtain ⟨hmem, hrun, hrequested, hfailed⟩ := h
    have hput : t.sys.mem.pmUsage = s.sys.mem.pmUsage - 1 := by
      rw [xgpioFree, pmRuntimePut, exec_modify] at hrun
      rw [hrun]
      rfl
    have hlength := List.length_erase_of_mem hmem
    have hpos := List.length_pos_of_mem hmem
    rw [hput, hrequested, hfailed, hs]
    omega
  | suspend =>
    obtain ⟨-, -, ⟨u, hrun, hsys⟩, hrequested, hfailed⟩ := h
    rw [hsys, hrequested, hfailed, ← hs, ← usage_suspend hrun]
    rfl

theorem PowerStart.short (h : PowerStart dt s) : UsageShort s := by
  obtain ⟨s₀, hzero, hrun⟩ := h.probed
  rw [UsageShort, usage_of_probe hrun, hzero, h.requested, h.failed]
  rfl

/-- In no run is the count right in all states: in each it is one less than the number of
requests that have taken a reference. -/
theorem usage_never_right (dt : DeviceTree) (s : PowerState) (h : PowerStart dt s)
    (l : List (PowerLabel × PowerState)) (hrun : Run PowerStep s l) :
    (UsageShort s ∧ Everywhere (fun _ _ t => UsageShort t) s l) ∧
      ¬(UseRight s ∧ Everywhere (fun _ _ t => UseRight t) s l) := by
  refine ⟨⟨h.short, ?_⟩, fun hright => ?_⟩
  · have hshort := hrun.with_invariant (fun _ _ _ hs hstep => usageShort_step hs hstep) h.short
    exact hshort.everywhere fun _ _ _ hstep => usageShort_step hstep.1 hstep.2
  · have hzero := hright.1.usage
    have hshort : s.sys.mem.pmUsage = s.requested.length + s.failed - 1 := h.short
    rw [h.failed] at hshort
    omega

end Usage

section Runs

/-- The state after a call, with kernel functions that all succeed. -/
def PowerState.after {α : Type} (s : PowerState) (p : Xgpio α)
    (requested : List (Channel × ℕ)) : PowerState :=
  ⟨((run (onDevice GpioRegs.answer willing) 2 p s.sys).map Prod.snd).getD s.sys, requested, s.failed⟩

theorem exec_willing {α : Type} {p : Xgpio α} {u v : Sys GpioRegs} {a : α}
    (h : run (onDevice GpioRegs.answer willing) 2 p u = some (a, v)) :
    Exec (withMemory gpioCore) p u a v :=
  (onDevice_refines GpioRegs.answer willing).exec _ ((watch_sound _ _).1 _ _ h)

def powered : PowerState := ⟨probed 0, [], 0⟩

theorem powerStart_powered : PowerStart (treeOf 0) powered := by
  have hrun : run (onDevice GpioRegs.answer willing) 2 (xgpioOfProbe (treeOf 0)) blank =
      some (0, powered.sys) := rfl
  exact ⟨⟨blank, rfl, exec_willing hrun⟩, rfl, rfl⟩

def pinRequested : PowerState := powered.after (xgpioRequest .first 0) [(.first, 0)]
def pinsRequested : PowerState :=
  pinRequested.after (xgpioRequest .first 1) [(.first, 1), (.first, 0)]
def pinFreed : PowerState := pinsRequested.after (xgpioFree .first 0) [(.first, 1)]
def pinSuspended : PowerState :=
  let t := pinFreed.after xgpioRuntimeSuspend [(.first, 1)]
  { t with sys := t.sys.withMem t.sys.mem.suspended }

theorem run_suspended : Run PowerStep powered [(.request .first 0, pinRequested),
    (.request .first 1, pinsRequested), (.free .first 0, pinFreed), (.suspend, pinSuspended)] := by
  have hrequest : run (onDevice GpioRegs.answer willing) 2 (xgpioRequest .first 0) powered.sys =
      some (0, pinRequested.sys) := rfl
  have hrequest' : run (onDevice GpioRegs.answer willing) 2 (xgpioRequest .first 1)
      pinRequested.sys = some (0, pinsRequested.sys) := rfl
  have hfree : run (onDevice GpioRegs.answer willing) 2 (xgpioFree .first 0) pinsRequested.sys =
      some ((), pinFreed.sys) := rfl
  have hsuspend : run (onDevice GpioRegs.answer willing) 2 xgpioRuntimeSuspend pinFreed.sys =
      some (0, (pinFreed.after xgpioRuntimeSuspend []).sys) := rfl
  refine .cons ⟨0, exec_willing hrequest, rfl, rfl⟩ ?_
  refine .cons ⟨0, exec_willing hrequest', rfl, rfl⟩ ?_
  refine .cons ⟨by decide, exec_willing hfree, rfl, rfl⟩ ?_
  exact .cons ⟨rfl, rfl, ⟨_, exec_willing hsuspend, rfl⟩, rfl, rfl⟩ (.nil _)

/-- After two requests and a free the count is 0. -/
theorem usage_short_freed : pinSuspended.sys.mem.pmUsage = 0 ∧ UsageShort pinSuspended := by
  obtain ⟨⟨-, -, -, -, hshort, -⟩, -⟩ :=
    usage_never_right (treeOf 0) powered powerStart_powered _ run_suspended
  exact ⟨rfl, hshort⟩

/-- The clock is switched off with a pin still requested. -/
theorem clock_off_in_use : ¬∀ dt s, PowerStart dt s → ∀ l, Run PowerStep s l →
    Everywhere (fun _ _ t => UseRight t) s l := by
  intro h
  obtain ⟨-, -, -, hsuspended, -⟩ := h (treeOf 0) powered powerStart_powered _ run_suspended
  exact absurd (hsuspended.clock (by decide) rfl) (by decide)

end Runs

end PynqPrio.Gpio
