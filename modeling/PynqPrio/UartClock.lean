import PynqPrio.UartRules
import PynqPrio.UartProbe
import PynqPrio.LabelledRuns

/-!
# The clock of the UART

The probe, `ulite_startup` and `ulite_runtime_resume` enable the clock; `ulite_shutdown`
and `ulite_runtime_suspend` disable it, and `ulite_remove` only unprepares it. One enable
is for the active device, one for the started port.
-/
namespace PynqPrio.Uart
open Programs Programs.Driver Programs.Prog

section Clock

/-- The core, with kernel functions that have these results. -/
def uartCoreWith (results : Port → ℤ) : Machine Port Port.Res UartRegs :=
  ofAnswer fun d (k : Outcome) p => d.answer { k with result := results p } p

structure ClockState where
  sys : Sys
  started : Bool
  removed : Bool

inductive ClockLabel where
  | startup (results : Port → ℤ)
  | shutdown
  | suspend
  | resume (results : Port → ℤ)
  | remove (console : Bool)

/-- The serial core starts a port that is not started and shuts down one that is; the PM core
suspends an active device and resumes a suspended one; the port is not started when the
device is removed. -/
def ClockStep (s : ClockState) (label : ClockLabel) (t : ClockState) : Prop :=
  s.removed = false ∧ match label with
  | .startup results => s.started = false ∧ t.removed = false ∧ ∃ ret,
      Exec (withMemory (uartCoreWith results)) uliteStartup s.sys ret t.sys ∧
      t.started = decide (ret = 0)
  | .shutdown => s.started = true ∧ t.removed = false ∧ t.started = false ∧
      Exec (withMemory uartCore) uliteShutdown s.sys () t.sys
  | .suspend => s.sys.mem.pmActive = true ∧ t.removed = false ∧ t.started = s.started ∧ ∃ u,
      Exec (withMemory uartCore) uliteRuntimeSuspend s.sys 0 u ∧
      t.sys = u.withMem (u.mem.withActive false)
  | .resume results => s.sys.mem.pmActive = false ∧ t.removed = false ∧ t.started = s.started ∧
      ∃ u, Exec (withMemory (uartCoreWith results)) uliteRuntimeResume s.sys 0 u ∧
      t.sys = u.withMem (u.mem.withActive true)
  | .remove console => s.started = false ∧ t.removed = true ∧ t.started = false ∧ ∃ rc,
      Exec (withMemory uartCore) (uliteRemove console) s.sys rc t.sys

structure ClockStart (s : ClockState) : Prop where
  probed : ∃ console aliases pdev s₀, s₀.mem.clkEnabled = 0 ∧
    Exec (withMemory uartCore) (uliteProbe console aliases pdev) s₀ 0 s.sys
  clk : s.sys.mem.clk = true
  started : s.started = false
  removed : s.removed = false

/-- The enables that the state of the device accounts for. -/
def enablesDue (s : ClockState) : ℤ :=
  (if s.sys.mem.pmActive = true then 1 else 0) + (if s.started = true then 1 else 0)

structure ClockRight (s : ClockState) : Prop where
  count : s.removed = false → s.sys.mem.clkEnabled = enablesDue s
  nonneg : 0 ≤ s.sys.mem.clkEnabled
  removed : s.removed = true → s.sys.mem.clkEnabled = 0

/-- No interrupt request fails after the clock has been enabled, no enable fails in a
resume, and the device is suspended when it is removed. -/
def ClockSafe (s : ClockState) (label : ClockLabel) (_ : ClockState) : Prop :=
  match label with
  | .startup results => results .clkEnable = 0 → results .requestIrq = 0
  | .resume results => results .clkEnable = 0
  | .remove _ => s.sys.mem.pmActive = false
  | .shutdown | .suspend => True

variable {s t : ClockState} {label : ClockLabel} {u v : Sys} {results : Port → ℤ}

/-! The functions with given results. -/

theorem clkEnable_with {ret : ℤ} (hclk : u.mem.clk = true)
    (h : Exec (withMemory (uartCoreWith results)) clkEnable u ret v) :
    ret = results .clkEnable ∧
      v.mem = if results .clkEnable = 0 then u.mem.enabled else u.mem := by
  rw [clkEnable, exec_get_bind, if_neg (by simp [hclk])] at h
  simp only [exec_bind_iff, exec_port, exec_onlyIf_modify, exec_pure] at h
  obtain ⟨_, _, ⟨_, ⟨k, ⟨⟩⟩, rfl⟩, _, _, rfl, rfl, rfl⟩ := h
  exact ⟨rfl, rfl⟩

structure ClockEffect (d : UartMem) (enables : ℤ) (d' : UartMem) : Prop where
  count : d'.clkEnabled = d.clkEnabled + enables
  active : d'.pmActive = d.pmActive
  clk : d'.clk = d.clk

theorem ClockEffect.refl (d : UartMem) : ClockEffect d 0 d := ⟨(Int.add_zero _).symm, rfl, rfl⟩

theorem clockEffect_enabled (d : UartMem) : ClockEffect d 1 d.enabled := ⟨rfl, rfl, rfl⟩

theorem clockEffect_disabled (d : UartMem) : ClockEffect d (-1) d.disabled := ⟨rfl, rfl, rfl⟩

theorem ClockEffect.trans {d d' d'' : UartMem} {m n : ℤ} (h : ClockEffect d m d')
    (h' : ClockEffect d' n d'') : ClockEffect d (m + n) d'' where
  count := by rw [h'.count, h.count, Int.add_assoc]
  active := h'.active.trans h.active
  clk := h'.clk.trans h.clk

/-- What a call changes that keeps the three fields. -/
def clockView (d : UartMem) : ℤ × Bool × Bool := (d.clkEnabled, d.pmActive, d.clk)

theorem clockEffect_of_view {d d' : UartMem} (h : clockView d' = clockView d) :
    ClockEffect d 0 d' := by
  obtain ⟨hcount, h⟩ := Prod.mk.inj h
  obtain ⟨hactive, hclk⟩ := Prod.mk.inj h
  exact ⟨by rw [hcount, Int.add_zero], hactive, hclk⟩

theorem requestIrq_with {ret : ℤ}
    (h : Exec (withMemory (uartCoreWith results)) requestIrq u ret v) :
    ret = results .requestIrq ∧ ClockEffect u.mem 0 v.mem := by
  have hkeep : Preserves clockView requestIrq :=
    .bind (.port _) fun _ => .bind (.onlyIf (.modify fun _ => rfl)) fun _ => .pure _
  refine ⟨?_, clockEffect_of_view (hkeep.exec h)⟩
  simp only [requestIrq, exec_bind_iff, exec_port, exec_pure] at h
  obtain ⟨_, _, ⟨_, ⟨k, ⟨⟩⟩, rfl⟩, _, _, -, rfl, -⟩ := h
  rfl

theorem preserves_out32 (val : BitVec 32) (offset : ℕ) : Preserves clockView (uartOut32 val offset) :=
  .port _

/-- A startup whose interrupt request fails leaves the clock enabled. -/
theorem startup_with {ret : ℤ} (hclk : u.mem.clk = true)
    (h : Exec (withMemory (uartCoreWith results)) uliteStartup u ret v) :
    ClockEffect u.mem (if results .clkEnable = 0 then 1 else 0) v.mem ∧
      (ret = 0 ↔ results .clkEnable = 0 ∧ results .requestIrq = 0) := by
  simp only [uliteStartup, exec_bind_iff, exec_ite, exec_pure] at h
  obtain ⟨_, w, henable, h⟩ := h
  obtain ⟨rfl, hmem⟩ := clkEnable_with hclk henable
  obtain ⟨hfail, rfl, rfl⟩ | ⟨hok, _, x, hirq, h⟩ := h
  · rw [if_neg hfail] at hmem ⊢
    rw [hmem]
    exact ⟨.refl _, by simp [hfail]⟩
  have hok := not_not.mp hok
  rw [if_pos hok] at hmem ⊢
  obtain ⟨rfl, hkeep⟩ := requestIrq_with hirq
  have heffect : ClockEffect u.mem 1 x.mem := by
    rw [hmem] at hkeep
    exact (clockEffect_enabled _).trans hkeep
  obtain ⟨hfail, rfl, rfl⟩ | ⟨hirq, _, y, hreset, _, z, hon, rfl, rfl⟩ := h
  · exact ⟨heffect, by simp [hfail]⟩
  · have hreset := clockEffect_of_view ((preserves_out32 _ _).exec hreset)
    have hon := clockEffect_of_view ((preserves_out32 _ _).exec hon)
    refine ⟨(heffect.trans hreset).trans hon, ?_⟩
    simp [hok, not_not.mp hirq]

theorem resume_with (hclk : u.mem.clk = true)
    (h : Exec (withMemory (uartCoreWith results)) uliteRuntimeResume u 0 v) :
    ClockEffect u.mem (if results .clkEnable = 0 then 1 else 0) v.mem := by
  simp only [uliteRuntimeResume, exec_bind_iff, exec_pure] at h
  obtain ⟨_, _, henable, -, rfl⟩ := h
  obtain ⟨-, hmem⟩ := clkEnable_with hclk henable
  rw [hmem]
  split
  · exact clockEffect_enabled _
  · exact .refl _

theorem suspend_effect (hclk : u.mem.clk = true)
    (h : Exec (withMemory uartCore) uliteRuntimeSuspend u 0 v) : ClockEffect u.mem (-1) v.mem := by
  simp only [uliteRuntimeSuspend, exec_bind_iff, exec_clkDisable, exec_pure] at h
  obtain ⟨_, _, rfl, -, rfl⟩ := h
  rw [Config.withMem_mem, if_pos hclk]
  exact clockEffect_disabled _

theorem shutdown_effect (hclk : u.mem.clk = true)
    (h : Exec (withMemory uartCore) uliteShutdown u () v) : ClockEffect u.mem (-1) v.mem := by
  simp only [uliteShutdown, exec_bind_iff, exec_clkDisable] at h
  obtain ⟨_, w, hout, _, x, hin, _, y, hfree, rfl⟩ := h
  have hout := clockEffect_of_view ((preserves_out32 _ _).exec hout)
  have hin := clockEffect_of_view ((Preserves.port (f := clockView) _).exec hin)
  have hfreeIrq : Preserves clockView freeIrq := .modify fun _ => rfl
  have hfree := clockEffect_of_view (hfreeIrq.exec hfree)
  have heffect := (hout.trans hin).trans hfree
  rw [Config.withMem_mem, if_pos (heffect.clk.trans hclk)]
  exact heffect.trans (clockEffect_disabled _)

/-! The probe and the removal. -/

theorem preserves_withIds (f : IdMaps → IdMaps) : Preserves UartMem.clkEnabled (withIds f) :=
  .modify fun _ => rfl

theorem preserves_clearBit (nr : ℤ) : Preserves UartMem.clkEnabled (clearBit nr) :=
  .bind (preserves_withIds _) fun _ => .note _

theorem preserves_unregisterDriver : Preserves UartMem.clkEnabled uartUnregisterDriver :=
  .bind .get fun _ => .bind (.note _) fun _ => .onlyIf (.modify fun _ => rfl)

theorem preserves_remove (console : Bool) : Preserves UartMem.clkEnabled (uliteRemove console) := by
  have hunprepare : Preserves UartMem.clkEnabled clkUnprepare :=
    .bind .get fun _ => .onlyIf (.modify fun _ => rfl)
  have hrelease : Preserves UartMem.clkEnabled uliteRelease :=
    .bind .get fun _ => .ite (.bind (.port _) fun _ => .bind (.modify fun _ => rfl) fun _ => .pure _)
      (.pure _)
  refine .bind hunprepare fun _ => .bind hrelease fun rc => .bind .get fun d =>
    .bind (preserves_clearBit _) fun _ => .bind (.onlyIf (.modify fun _ => rfl)) fun _ =>
    .bind preserves_unregisterDriver fun _ => .bind (.modify fun _ => rfl) fun _ => .pure _

theorem preserves_getId (aliases : AliasList) (pdev : PlatformDevice) :
    Preserves UartMem.clkEnabled (uliteGetId aliases pdev) := by
  have hinit : Preserves UartMem.clkEnabled (initAliasBitmap aliases) :=
    .bind .get fun _ => .ite (.pure _) <| .bind (preserves_withIds _) fun _ =>
      .ite (.pure _) <| .bind (preserves_withIds _) fun _ => .pure _
  have htest : ∀ nr, Preserves UartMem.clkEnabled (testAndSetBit nr) := by
    intro nr
    exact .bind .get fun _ => .bind (preserves_withIds _) fun _ => .pure _
  have hsearch : Preserves UartMem.clkEnabled searchFreeId :=
    .iterate fun id => .bind .get fun _ => .ite (.pure _) <| .bind (htest _) fun _ => .pure _
  exact .bind hinit fun _ => .ite (.pure _) <| .bind (preserves_withIds _) fun _ =>
    .ite hsearch (.pure _)

theorem preserves_registerDriver : Preserves UartMem.clkEnabled uartRegisterDriver :=
  .bind (.port _) fun _ => .bind (.onlyIf (.modify fun _ => rfl)) fun _ => .pure _

theorem preserves_assign (console : Bool) : Preserves clockView (uliteAssign console) := by
  refine .bind (.port _) fun _ => .ite (.pure _) <| .bind (.modify fun _ => rfl) fun _ =>
    .bind .get fun _ => .bind (.onlyIf (.modify fun _ => rfl)) fun _ => .bind (.port _) fun _ => ?_
  refine .ite (.bind (.modify fun _ => rfl) fun _ => .pure _) (.ite ?_ (.pure _))
  exact .bind .get fun _ => .bind (.port _) fun _ => .bind (.onlyIf (.modify fun _ => rfl)) fun _ =>
    .pure _

/-! The labels return the status they were reached with. -/

theorem errOutId_ret {ret x : ℤ} (h : Exec (withMemory uartCore) (errOutId ret) u x v) : x = ret := by
  simp only [errOutId, exec_bind_iff, exec_pure] at h
  obtain ⟨_, _, -, _, _, -, rfl, -⟩ := h
  rfl

theorem errOutUnregisterDriver_ret {ret x : ℤ}
    (h : Exec (withMemory uartCore) (errOutUnregisterDriver ret) u x v) : x = ret := by
  obtain ⟨_, _, -, h⟩ := (exec_bind_iff _ _ _).mp h
  exact errOutId_ret h

theorem errOutClkDisable_ret {ret x : ℤ}
    (h : Exec (withMemory uartCore) (errOutClkDisable ret) u x v) : x = ret := by
  obtain ⟨_, _, -, h⟩ := (exec_bind_iff _ _ _).mp h
  obtain ⟨_, _, -, h⟩ := (exec_bind_iff _ _ _).mp h
  exact errOutUnregisterDriver_ret h

theorem clkPrepareEnable_effect {ret : ℤ} (hret : ret = 0)
    (h : Exec (withMemory uartCore) clkPrepareEnable u ret v) :
    ClockEffect u.mem (if u.mem.clk = true then 1 else 0) v.mem := by
  rw [clkPrepareEnable, exec_get_bind] at h
  simp only [exec_ite, exec_bind_iff, exec_pure, exec_onlyIf_modify] at h
  obtain ⟨hclk, -, rfl⟩ | ⟨hclk, r, w, hport, _, _, rfl, hr, rfl⟩ := h
  · rw [if_neg (by simp [hclk])]
    exact .refl _
  · have hkeep := (Preserves.port (f := fun d : UartMem => d) _).exec hport
    rw [if_pos (by simpa using hclk), Config.withMem_mem, if_pos (hr ▸ hret), hkeep]
    exact ⟨rfl, rfl, rfl⟩

/-- The end of a successful probe. -/
theorem probeClocked_success {console : Bool}
    (h : Exec (withMemory uartCore) (probeClocked console) u 0 v) :
    v.mem.clk = u.mem.clk ∧ v.mem.pmActive = true ∧
      (u.mem.clk = true → v.mem.clkEnabled = u.mem.clkEnabled + 1) := by
  simp only [probeClocked, exec_bind_iff, exec_ite, exec_pure] at h
  obtain ⟨ret, w, hclk, ⟨hfail, herr⟩ | ⟨hok, _, x, hsetup, _, y, hdriver, ret', z, hassign, h⟩⟩ := h
  · exact absurd (errOutUnregisterDriver_ret herr).symm hfail
  obtain ⟨hfail, herr⟩ | ⟨-, -, rfl⟩ := h
  · have hret := errOutClkDisable_ret herr
    omega
  have heffect := clkPrepareEnable_effect (not_not.mp hok) hclk
  simp only [pmRuntimeSetup, exec_modify] at hsetup hdriver
  subst hsetup hdriver
  have hassign := clockEffect_of_view ((preserves_assign console).exec hassign)
  refine ⟨hassign.clk.trans heffect.clk, hassign.active, fun henabled => ?_⟩
  rw [hassign.count, Int.add_zero]
  rw [if_pos henabled] at heffect
  exact heffect.count

theorem clkGet_error {e : ℤ} (h : Exec (withMemory uartCore) clkGet u (.error e) v) : e < 0 := by
  obtain ⟨_, ⟨k, hk⟩, -⟩ := (exec_port (R := Port.Res) .clkGet _).mp h
  obtain ⟨hanswer, -⟩ := Prod.mk.inj (Option.some.inj hk)
  by_cases hneg : k.result < 0
  · rw [if_pos hneg] at hanswer
    exact Except.error.inj hanswer ▸ hneg
  · rw [if_neg hneg] at hanswer
    cases hanswer

theorem probeRegistered_success {console : Bool}
    (h : Exec (withMemory uartCore) (probeRegistered console) u 0 v) :
    v.mem.pmActive = true ∧ (v.mem.clk = true → v.mem.clkEnabled = u.mem.clkEnabled + 1) := by
  simp only [probeRegistered, exec_bind_iff, exec_ite] at h
  obtain ⟨res, w, hres, ⟨-, herr⟩ | ⟨-, irq, x, hirq, ⟨-, herr⟩ | ⟨-, clk, y, hclk, h⟩⟩⟩ := h
  · exact absurd (errOutUnregisterDriver_ret herr) (by decide)
  · exact absurd (errOutUnregisterDriver_ret herr) (by decide)
  have hkeep : y.mem.clkEnabled = u.mem.clkEnabled := by
    rw [(Preserves.port (f := UartMem.clkEnabled) _).exec hclk,
      (Preserves.port (f := UartMem.clkEnabled) _).exec hirq,
      (Preserves.port (f := UartMem.clkEnabled) _).exec hres]
  cases clk with
  | ok _ =>
    simp only [exec_bind_iff, exec_modify] at h
    obtain ⟨_, _, rfl, h⟩ := h
    obtain ⟨hclock, hactive, hcount⟩ := probeClocked_success h
    refine ⟨hactive, fun henabled => ?_⟩
    rw [hcount (hclock.symm.trans henabled)]
    exact congrArg (· + 1) hkeep
  | error e =>
    simp only [exec_bind_iff, exec_ite, exec_modify] at h
    obtain ⟨hfail, herr⟩ | ⟨-, _, _, rfl, h⟩ := h
    · have hret := errOutUnregisterDriver_ret herr
      have hneg := clkGet_error hclk
      omega
    · obtain ⟨hclock, hactive, hcount⟩ := probeClocked_success h
      refine ⟨hactive, fun henabled => ?_⟩
      exact absurd (hclock.symm.trans henabled) Bool.false_ne_true

theorem probe_success {console : Bool} {aliases : AliasList} {pdev : PlatformDevice}
    (h : Exec (withMemory uartCore) (uliteProbe console aliases pdev) u 0 v) :
    v.mem.pmActive = true ∧ (v.mem.clk = true → v.mem.clkEnabled = u.mem.clkEnabled + 1) := by
  simp only [uliteProbe, exec_bind_iff, exec_ite, exec_pure] at h
  obtain ⟨_, w, hdata, ⟨-, herr, -⟩ | ⟨-, _, x, hdriver, ⟨-, herr, -⟩ | ⟨-, id, y, hid, h⟩⟩⟩ := h
  · exact absurd herr (by decide)
  · exact absurd herr (by decide)
  obtain ⟨_, z, hset, ⟨hneg, rfl, -⟩ | ⟨-, h⟩⟩ := h
  · exact absurd hneg (by decide)
  have hkeep : z.mem.clkEnabled = u.mem.clkEnabled := by
    have hassigned : z.mem.clkEnabled = y.mem.clkEnabled := by
      rw [(exec_modify _ _).mp hset]
      rfl
    rw [hassigned, (preserves_getId aliases pdev).exec hid,
      (Preserves.port (f := UartMem.clkEnabled) _).exec hdriver,
      (Preserves.port (f := UartMem.clkEnabled) _).exec hdata]
  simp only [probeNamed, exec_bind_iff, exec_ite] at h
  obtain ⟨_, a, hname, ⟨-, herr⟩ | ⟨-, _, b, hconsole, ⟨-, herr⟩ | ⟨-, ret, c, hregister, h⟩⟩⟩ := h
  · exact absurd (errOutId_ret herr) (by decide)
  · exact absurd (errOutId_ret herr) (by decide)
  obtain ⟨hneg, herr⟩ | ⟨-, h⟩ := h
  · have hret := errOutId_ret herr
    omega
  have hkeep' : c.mem.clkEnabled = z.mem.clkEnabled := by
    have halloc : Preserves UartMem.clkEnabled (consoleAlloc console) := .ite (.port _) (.pure _)
    rw [preserves_registerDriver.exec hregister, halloc.exec hconsole,
      (Preserves.port (f := UartMem.clkEnabled) _).exec hname]
  rw [← hkeep, ← hkeep']
  exact probeRegistered_success h

theorem ClockStart.right (h : ClockStart s) : ClockRight s := by
  obtain ⟨console, aliases, pdev, s₀, hcount, hrun⟩ := h.probed
  obtain ⟨hactive, henabled⟩ := probe_success hrun
  have hone : s.sys.mem.clkEnabled = 1 := by rw [henabled h.clk, hcount, Int.zero_add]
  constructor
  · intro _
    rw [hone, enablesDue, hactive, h.started]
    rfl
  · rw [hone]
    decide
  · intro hremoved
    exact absurd (h.removed.symm.trans hremoved) Bool.false_ne_true

theorem enablesDue_nonneg (s : ClockState) : 0 ≤ enablesDue s := by
  rw [enablesDue]
  split <;> split <;> decide

theorem right_iff (h : s.removed = false) :
    ClockRight s ↔ s.sys.mem.clkEnabled = enablesDue s := by
  constructor
  · exact fun hright => hright.count h
  · intro hcount
    constructor
    · exact fun _ => hcount
    · rw [hcount]
      exact enablesDue_nonneg s
    · exact fun hremoved => absurd (h.symm.trans hremoved) Bool.false_ne_true

theorem clockStep_right (hs : ClockRight s) (hclk : s.sys.mem.clk = true)
    (h : ClockStep s label t) :
    (ClockRight t ↔ ClockSafe s label t) ∧ (t.removed = false → t.sys.mem.clk = true) := by
  obtain ⟨hpresent, h⟩ := h
  have hcount := hs.count hpresent
  rw [enablesDue] at hcount
  cases label with
  | startup results =>
    obtain ⟨hstopped, hremoved, ret, hrun, hstarted⟩ := h
    obtain ⟨heffect, hret⟩ := startup_with hclk hrun
    refine ⟨?_, fun _ => heffect.clk.trans hclk⟩
    rw [right_iff hremoved, enablesDue, heffect.count, heffect.active, hcount, hstopped, hstarted]
    simp only [hret, ClockSafe]
    by_cases henable : results .clkEnable = 0
    · by_cases hirq : results .requestIrq = 0
      · simp [henable, hirq]
      · simp only [henable, hirq, and_false, decide_false, Bool.false_eq_true, if_false, if_true]
        split <;> simp
    · simp [henable]
  | shutdown =>
    obtain ⟨hstarted, hremoved, hstopped, hrun⟩ := h
    have heffect := shutdown_effect hclk hrun
    refine ⟨iff_of_true ?_ trivial, fun _ => heffect.clk.trans hclk⟩
    rw [right_iff hremoved, enablesDue, heffect.count, heffect.active, hcount, hstarted, hstopped]
    split <;> simp
  | suspend =>
    obtain ⟨hactive, hremoved, hstarted, u, hrun, hsys⟩ := h
    have heffect := suspend_effect hclk hrun
    rw [hsys]
    refine ⟨iff_of_true ?_ trivial, fun _ => heffect.clk.trans hclk⟩
    rw [right_iff hremoved, enablesDue, hsys, hstarted]
    simp only [Config.withMem_mem, UartMem.withActive_clkEnabled, UartMem.withActive_pmActive,
      heffect.count, hcount, hactive]
    cases s.started <;> simp
  | resume results =>
    obtain ⟨hactive, hremoved, hstarted, u, hrun, hsys⟩ := h
    have heffect := resume_with hclk hrun
    rw [hsys]
    refine ⟨?_, fun _ => heffect.clk.trans hclk⟩
    rw [right_iff hremoved, enablesDue, hsys, hstarted]
    by_cases henable : results .clkEnable = 0
    · simp [heffect.count, hcount, hactive, ClockSafe, henable, Int.add_comm]
    · simp only [Config.withMem_mem, UartMem.withActive_clkEnabled, UartMem.withActive_pmActive,
        heffect.count, hcount, hactive, ClockSafe, henable]
      cases s.started <;> simp
  | remove console =>
    obtain ⟨hstopped, hremoved, -, rc, hrun⟩ := h
    have hkeep := (preserves_remove console).exec hrun
    have hzero : t.sys.mem.clkEnabled = 0 ↔ s.sys.mem.pmActive = false := by
      rw [hkeep, hcount, hstopped]
      cases s.sys.mem.pmActive <;> simp
    refine ⟨⟨fun hright => hzero.mp (hright.removed hremoved), fun hsafe => ?_⟩,
      fun hleft => absurd (hleft.symm.trans hremoved) Bool.false_ne_true⟩
    have hcleared := hzero.mpr hsafe
    constructor
    · exact fun hleft => absurd (hleft.symm.trans hremoved) Bool.false_ne_true
    · exact Int.le_of_eq hcleared.symm
    · exact fun _ => hcleared

/-- The enable count is right in all states of a run, and 0 at its end, exactly if every
step is safe. -/
theorem clock_right_iff (s : ClockState) (h : ClockStart s) (l : List (ClockLabel × ClockState))
    (hrun : Run ClockStep s l) :
    (ClockRight s ∧ Everywhere (fun _ _ t => ClockRight t) s l) ↔ Everywhere ClockSafe s l := by
  have hstep : ∀ s label t, (ClockRight s ∧ (s.removed = false → s.sys.mem.clk = true)) →
      ClockStep s label t → (ClockRight t ↔ ClockSafe s label t) ∧
        (ClockRight t → ClockRight t ∧ (t.removed = false → t.sys.mem.clk = true)) := by
    intro s label t hs hstep
    obtain ⟨hiff, hclk⟩ := clockStep_right hs.1 (hs.2 hstep.1) hstep
    exact ⟨hiff, fun hright => ⟨hright, hclk⟩⟩
  rw [← hrun.everywhere_iff hstep ⟨h.right, fun _ => h.clk⟩]
  exact and_iff_right h.right

end Clock

section Runs

def unprobed : Sys := freshPort.withMem { freshPort.mem with
  clk := false
  id := none
  uliteUartDriver := false
  drvdata := false
  clkPrepared := 0
  clkEnabled := 0
  driverRegistered := false
  pmEnabled := false
  pmActive := false
  pmAutosuspend := false
  ids := ⟨fun _ => false, false, fun _ => false⟩ }

/-- A device without a requested identifier or an alias. -/
def plainDevice : PlatformDevice := ⟨none, -1, none⟩

def after {α : Type} (results : Port → ℤ) (p : Ulite α) (s : Sys) : Option (α × Sys) :=
  run (onDevice (fun d (k : Outcome) p => d.answer { k with result := results p } p) calm) 2 p s

theorem exec_after {α : Type} {results : Port → ℤ} {p : Ulite α} {s t : Sys} {a : α}
    (h : after results p s = some (a, t)) : Exec (withMemory (uartCoreWith results)) p s a t :=
  (onDevice_refines _ calm).exec _ ((watch_sound _ _).1 _ _ h)

theorem uartCoreWith_refines (results : Port → ℤ) : (uartCoreWith results).Refines uartCore id := by
  intro d p x e h
  obtain ⟨k, hk⟩ := h
  exact ⟨_, hk⟩

theorem exec_after_core {α : Type} {results : Port → ℤ} {p : Ulite α} {s t : Sys} {a : α}
    (h : after results p s = some (a, t)) : Exec (withMemory uartCore) p s a t :=
  (withMemory_refines (uartCoreWith_refines results)).exec _ (exec_after h)

/-- Everything succeeds, and the interrupt has a number. -/
def willing : Port → ℤ
  | .platformGetIrq => 5
  | _ => 0

def irqBusy : Port → ℤ
  | .requestIrq => -16
  | _ => 0

def probedPort : ClockState :=
  ⟨((after willing (uliteProbe false ⟨0, fun _ => false⟩ plainDevice) unprobed).getD (0, unprobed)).2,
    false, false⟩

theorem clockStart_probed : ClockStart probedPort := by
  have hrun : after willing (uliteProbe false ⟨0, fun _ => false⟩ plainDevice) unprobed =
      some (0, probedPort.sys) := rfl
  exact ⟨⟨_, _, _, unprobed, rfl, exec_after_core hrun⟩, rfl, rfl, rfl⟩

def next {α : Type} (results : Port → ℤ) (p : Ulite α) (s : ClockState)
    (started active removed : Bool) : ClockState :=
  let t := ((after results p s.sys).map Prod.snd).getD s.sys
  ⟨t.withMem (t.mem.withActive active), started, removed⟩

def startedPort : ClockState := next willing uliteStartup probedPort true true false
def idlePort : ClockState := next willing uliteRuntimeSuspend startedPort true false false
def closedPort : ClockState := next willing uliteShutdown idlePort false false false
def removedPort : ClockState := next willing (uliteRemove false) closedPort false false true

theorem run_closed : Run ClockStep probedPort [(.startup willing, startedPort), (.suspend, idlePort),
    (.shutdown, closedPort), (.remove false, removedPort)] := by
  have hstartup : after willing uliteStartup probedPort.sys = some (0, startedPort.sys) := rfl
  have hshutdown : after willing uliteShutdown idlePort.sys = some ((), closedPort.sys) := rfl
  have hremove : after willing (uliteRemove false) closedPort.sys = some (0, removedPort.sys) := rfl
  have hsuspend : after willing uliteRuntimeSuspend startedPort.sys =
      some (0, ((after willing uliteRuntimeSuspend startedPort.sys).map Prod.snd).getD
        startedPort.sys) := rfl
  refine .cons ⟨rfl, rfl, rfl, 0, exec_after hstartup, rfl⟩ ?_
  refine .cons ⟨rfl, rfl, rfl, rfl, _, exec_after_core hsuspend, rfl⟩ ?_
  refine .cons ⟨rfl, rfl, rfl, rfl, exec_after_core hshutdown⟩ ?_
  exact .cons ⟨rfl, rfl, rfl, rfl, 0, exec_after_core hremove⟩ (.nil _)

/-- The device is suspended while the port is started, and then the port is shut down. -/
theorem clock_right_closed : ClockRight removedPort := by
  obtain ⟨-, -, -, -, hremoved, -⟩ := (clock_right_iff probedPort clockStart_probed _ run_closed).mpr
    ⟨fun _ => rfl, trivial, trivial, rfl, trivial⟩
  exact hremoved

def leakedPort : ClockState := next irqBusy uliteStartup probedPort false true false

/-- The clock is enabled twice after a startup that fails in `request_irq`. -/
theorem enable_leaked : ¬∀ s, ClockStart s → ∀ l, Run ClockStep s l →
    Everywhere (fun _ _ t => ClockRight t) s l := by
  have hstartup : after irqBusy uliteStartup probedPort.sys = some (-16, leakedPort.sys) := rfl
  intro h
  have hright := h probedPort clockStart_probed [(.startup irqBusy, leakedPort)]
    (.cons ⟨rfl, rfl, rfl, -16, exec_after hstartup, rfl⟩ (.nil _))
  have hcount : (2 : ℤ) = 1 := hright.1.count rfl
  omega

end Runs

end PynqPrio.Uart
