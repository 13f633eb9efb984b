import PynqPrio.UartIds
import PynqPrio.ProofOutlines

/-!
# A failing probe of the UART driver

The labels of `ulite_probe` undo what the probe has acquired. Here the core keeps the calls
made so far, so that every call of a kernel function has a result of its own, and the
point of failure is a function of these results.
-/
namespace PynqPrio.Uart
open Programs Programs.Driver Programs.Prog

deriving instance DecidableEq for Port

/-- The registers with the accesses and calls so far. -/
abbrev UartCalls := UartRegs × List Port

abbrev CallSys := Config UartMem Event UartCalls

/-- The core, with kernel functions whose calls have these results, in turn. -/
def uartCoreCalls (results : Port → ℕ → ℤ) : Machine Port Port.Res UartCalls :=
  fun e p x e' =>
    (∃ k : Outcome, e.1.answer { k with result := results p (e.2.count p) } p = some (x, e'.1)) ∧
      e'.2 = e.2 ++ [p]

theorem uartCoreCalls_refines (results : Port → ℕ → ℤ) :
    (uartCoreCalls results).Refines uartCore Prod.fst := by
  rintro e p x e' ⟨⟨k, hk⟩, -⟩
  exact ⟨_, hk⟩

/-- Where `ulite_probe` can fail once it has an identifier. -/
inductive FailurePoint where
  | name | console | register | resource | irq | clkGet | clkPrepare | portAlloc | addPort
  deriving DecidableEq

/-- The values for `unregisterDriver` on the way out. -/
def FailurePoint.unregisters : FailurePoint → List Bool
  | .name | .console | .register => []
  | .resource | .irq | .clkGet | .clkPrepare => [false]
  | .portAlloc | .addPort => [true]

def FailurePoint.registered (point : FailurePoint) : Prop :=
  point ≠ .name ∧ point ≠ .console ∧ point ≠ .register

section Results

variable (console : Bool) (results : Port → ℕ → ℤ)

/-! The point of failure for given results, with one definition for each part of the probe. -/

def assignFailure : Option FailurePoint :=
  if results .kzalloc (if console = true then 3 else 2) ≠ 0 then some .portAlloc
  else if results .uartAddOnePort 0 < 0 then some .addPort
  else none

def clockedFailure (clk : Bool) : Option FailurePoint :=
  if clk = true ∧ results .clkPrepareEnable 0 ≠ 0 then some .clkPrepare
  else assignFailure console results

def registeredFailure : Option FailurePoint :=
  if results .platformGetResource 0 ≠ 0 then some .resource
  else if results .platformGetIrq 0 ≤ 0 then some .irq
  else if 0 ≤ results .clkGet 0 then clockedFailure console results true
  else if results .clkGet 0 ≠ -enoent then some .clkGet
  else clockedFailure console results false

def probeFailure : Option FailurePoint :=
  if results .kasprintf 0 ≠ 0 then some .name
  else if console = true ∧ results .kzalloc 2 ≠ 0 then some .console
  else if results .uartRegisterDriver 0 < 0 then some .register
  else registeredFailure console results

end Results

section Calls

variable {results : Port → ℕ → ℤ} {console : Bool} {s u v w : CallSys} {l : List Port} {ret x : ℤ}

def Port.IsKernel : Port → Prop
  | .in32 _ | .out32 .. => False
  | _ => True

/-- How a result is answered. -/
def Port.reply (r : ℤ) : (p : Port) → Port.Res p
  | .in32 _ => 0
  | .out32 .. => ()
  | .kzalloc | .kasprintf | .platformGetResource | .consoleEnabled => decide (r = 0)
  | .clkGet => if r < 0 then .error r else .ok ()
  | .clkEnable | .requestIrq | .uartRegisterDriver | .platformGetIrq | .clkPrepareEnable
  | .uartAddOnePort | .uartRemoveOnePort => r

theorem exec_kernel {p : Port} (hp : p.IsKernel) {y : Port.Res p}
    (h : Exec (withMemory (uartCoreCalls results)) (port (P := Port) p : Ulite (Port.Res p)) u y v) :
    y = p.reply (results p (u.dev.2.count p)) ∧ ∃ e, v = u.withDev (e, u.dev.2 ++ [p]) := by
  obtain ⟨⟨e, l⟩, ⟨⟨k, hk⟩, rfl⟩, rfl⟩ := (exec_port (R := Port.Res) p y).mp h
  refine ⟨?_, e, rfl⟩
  cases p with
  | in32 => exact hp.elim
  | out32 => exact hp.elim
  | _ => exact (Prod.mk.inj (Option.some.inj hk)).1.symm

structure Holdings where
  consolePort : ConsolePort
  drvdata : Bool
  clkPrepared : ℤ
  clkEnabled : ℤ
  pmEnabled : Bool
  uliteUartDriver : Bool

def UartMem.holdings (d : UartMem) : Holdings :=
  ⟨d.consolePort, d.drvdata, d.clkPrepared, d.clkEnabled, d.pmEnabled, d.uliteUartDriver⟩

/-- The pointers that a trace unregisters. -/
def unregistered (l : List Event) : List Bool :=
  l.filterMap fun
    | .unregisterDriver driver => some driver
    | _ => none

/-- Nothing has been acquired or unregistered between two states. -/
structure Holds (u v : CallSys) : Prop where
  holdings : v.mem.holdings = u.mem.holdings
  unregistered : unregistered v.trace = unregistered u.trace

theorem Holds.trans (h : Holds u v) (h' : Holds v w) : Holds u w :=
  ⟨h'.holdings.trans h.holdings, h'.unregistered.trans h.unregistered⟩

theorem holds_withMem {d : UartMem} (hd : d.holdings = u.mem.holdings) : Holds u (u.withMem d) :=
  ⟨hd, rfl⟩

/-- A call of the kernel. -/
theorem holds_call {p : Port} (hp : p.IsKernel) {y : Port.Res p} (hu : u.dev.2 = l)
    (h : Exec (withMemory (uartCoreCalls results)) (port (P := Port) p : Ulite (Port.Res p)) u y v) :
    y = p.reply (results p (l.count p)) ∧ Holds u v ∧ v.mem = u.mem ∧ v.dev.2 = l ++ [p] := by
  obtain ⟨rfl, e, rfl⟩ := exec_kernel hp h
  exact ⟨by rw [hu], ⟨rfl, rfl⟩, rfl, by rw [Config.withDev_dev, hu]⟩

theorem errOutId_holds (h : Exec (withMemory (uartCoreCalls results)) (errOutId ret) u x v) :
    x = ret ∧ Holds u v ∧ v.dev = u.dev := by
  rw [errOutId, exec_get_bind] at h
  simp only [clearBit, withIds, exec_bind_iff, exec_modify, exec_note, exec_pure] at h
  obtain ⟨_, _, ⟨_, _, rfl, rfl⟩, rfl, rfl⟩ := h
  refine ⟨rfl, ⟨rfl, ?_⟩, rfl⟩
  exact List.filterMap_append.trans (List.append_nil _)

theorem errOutUnregisterDriver_unwinds
    (h : Exec (withMemory (uartCoreCalls results)) (errOutUnregisterDriver ret) u x v) :
    x = ret ∧ v.mem.holdings = u.mem.holdings ∧ v.dev = u.dev ∧
      unregistered v.trace = unregistered u.trace ++ [u.mem.uliteUartDriver] := by
  obtain ⟨_, w, hdriver, herr⟩ := (exec_bind_iff _ _ _).mp h
  obtain ⟨rfl, hholds, hdev⟩ := errOutId_holds herr
  rw [uartUnregisterDriver, exec_get_bind] at hdriver
  simp only [exec_bind_iff, exec_note, exec_onlyIf_modify] at hdriver
  obtain ⟨_, _, rfl, rfl⟩ := hdriver
  refine ⟨rfl, hholds.holdings.trans ?_, hdev, ?_⟩
  · rw [Config.withMem_mem]
    split <;> rfl
  · rw [hholds.unregistered]
    exact List.filterMap_append

/-- The clock is disabled and unprepared if there is one. -/
theorem errOutClkDisable_unwinds
    (h : Exec (withMemory (uartCoreCalls results)) (errOutClkDisable ret) u x v) :
    x = ret ∧ v.dev = u.dev ∧
      v.mem.holdings = { u.mem.holdings with
        clkPrepared := u.mem.clkPrepared - if u.mem.clk = true then 1 else 0
        clkEnabled := u.mem.clkEnabled - if u.mem.clk = true then 1 else 0
        pmEnabled := false } ∧
      unregistered v.trace = unregistered u.trace ++ [u.mem.uliteUartDriver] := by
  obtain ⟨_, w, hclk, h⟩ := (exec_bind_iff _ _ _).mp h
  obtain ⟨_, y, hpm, herr⟩ := (exec_bind_iff _ _ _).mp h
  obtain ⟨rfl, hholdings, hdev, hdrivers⟩ := errOutUnregisterDriver_unwinds herr
  rw [clkDisableUnprepare, exec_bind_iff] at hclk
  obtain ⟨_, z, hdisable, hunprepare⟩ := hclk
  rw [clkDisable, exec_get_bind, exec_onlyIf_modify] at hdisable
  rw [clkUnprepare, exec_get_bind, exec_onlyIf_modify] at hunprepare
  rw [pmRuntimeTeardown, exec_modify] at hpm
  subst hdisable hunprepare hpm
  refine ⟨rfl, hdev, hholdings.trans ?_, hdrivers.trans ?_⟩
  · by_cases henabled : u.mem.clk = true
    · simp [UartMem.holdings, henabled]
    · simp [UartMem.holdings, henabled]
  · by_cases henabled : u.mem.clk = true
    · simp [Config.withMem, henabled]
    · simp [Config.withMem, henabled]

end Calls

section Failures

variable {results : Port → ℕ → ℤ} {console : Bool} {s u v w : CallSys} {l : List Port} {ret x : ℤ}

/-- Where a probe that failed at a point has left what it acquires. -/
structure Unwound (console : Bool) (point : FailurePoint) (u v : CallSys) : Prop where
  consolePort : v.mem.consolePort =
    if point = .addPort ∧ console = true ∧ u.mem.consolePort = .null then .thisPort
    else u.mem.consolePort
  drvdata : v.mem.drvdata = u.mem.drvdata
  clkPrepared : v.mem.clkPrepared = u.mem.clkPrepared
  clkEnabled : v.mem.clkEnabled = u.mem.clkEnabled
  pmEnabled : v.mem.pmEnabled = u.mem.pmEnabled
  drivers : unregistered v.trace = unregistered u.trace ++ point.unregisters

structure Idle (u : CallSys) : Prop where
  drvdata : u.mem.drvdata = false
  pmEnabled : u.mem.pmEnabled = false
  uliteUartDriver : u.mem.uliteUartDriver = false

theorem Holds.idle (h : Holds u v) (hu : Idle u) : Idle v where
  drvdata := (congrArg Holdings.drvdata h.holdings).trans hu.drvdata
  pmEnabled := (congrArg Holdings.pmEnabled h.holdings).trans hu.pmEnabled
  uliteUartDriver := (congrArg Holdings.uliteUartDriver h.holdings).trans hu.uliteUartDriver

theorem Holds.unwound {point : FailurePoint} (h : Holds u v) (h' : Unwound console point v w) :
    Unwound console point u w where
  consolePort := by
    have hsame : v.mem.consolePort = u.mem.consolePort := congrArg Holdings.consolePort h.holdings
    rw [h'.consolePort, hsame]
  drvdata := h'.drvdata.trans (congrArg Holdings.drvdata h.holdings)
  clkPrepared := h'.clkPrepared.trans (congrArg Holdings.clkPrepared h.holdings)
  clkEnabled := h'.clkEnabled.trans (congrArg Holdings.clkEnabled h.holdings)
  pmEnabled := h'.pmEnabled.trans (congrArg Holdings.pmEnabled h.holdings)
  drivers := by rw [h'.drivers, h.unregistered]

/-- A point from which the driver of the UART is not registered, or `NULL` is unregistered. -/
theorem unwound_of_held {point : FailurePoint} (hpoint : point ≠ .addPort)
    (hholdings : v.mem.holdings = u.mem.holdings)
    (hdrivers : unregistered v.trace = unregistered u.trace ++ point.unregisters) :
    Unwound console point u v where
  consolePort := by
    rw [if_neg fun h => hpoint h.1]
    exact congrArg Holdings.consolePort hholdings
  drvdata := congrArg Holdings.drvdata hholdings
  clkPrepared := congrArg Holdings.clkPrepared hholdings
  clkEnabled := congrArg Holdings.clkEnabled hholdings
  pmEnabled := congrArg Holdings.pmEnabled hholdings
  drivers := hdrivers

/-- At `err_out_id` nothing is unregistered. -/
theorem errOutId_unwound {point : FailurePoint} (hpoint : point.unregisters = [])
    (h : Exec (withMemory (uartCoreCalls results)) (errOutId ret) u x v) :
    Unwound console point u v := by
  obtain ⟨-, hholds, -⟩ := errOutId_holds h
  refine unwound_of_held ?_ hholds.holdings ?_
  · rintro rfl
    cases hpoint
  · rw [hholds.unregistered, hpoint, List.append_nil]

/-- At `err_out_unregister_driver`, reached before the pointer is stored, `NULL` is. -/
theorem errOutUnregisterDriver_unwound {point : FailurePoint}
    (hpoint : point.unregisters = [false]) (hu : Idle u)
    (h : Exec (withMemory (uartCoreCalls results)) (errOutUnregisterDriver ret) u x v) :
    Unwound console point u v := by
  obtain ⟨-, hholdings, -, hdrivers⟩ := errOutUnregisterDriver_unwinds h
  refine unwound_of_held ?_ hholdings ?_
  · rintro rfl
    cases hpoint
  · rw [hdrivers, hpoint, hu.uliteUartDriver]

/-- How `ulite_assign` fails. -/
theorem assign_fails (hret : ret < 0) (hu : u.mem.drvdata = false)
    (hdev : u.dev.2 = l) (hkzalloc : l.count .kzalloc = if console = true then 3 else 2)
    (hadd : l.count .uartAddOnePort = 0)
    (h : Exec (withMemory (uartCoreCalls results)) (uliteAssign console) u ret v) :
    ∃ point, assignFailure console results = some point ∧ point.unregisters = [true] ∧
      v.mem.clk = u.mem.clk ∧ unregistered v.trace = unregistered u.trace ∧
      v.mem.holdings = { u.mem.holdings with
        consolePort := if point = .addPort ∧ console = true ∧ u.mem.consolePort = .null
          then .thisPort else u.mem.consolePort } := by
  simp only [uliteAssign, exec_bind_iff, exec_ite] at h
  obtain ⟨allocated, w, halloc, h⟩ := h
  obtain ⟨hallocated, hholds, hmem, hdev'⟩ := holds_call (p := .kzalloc) trivial hdev halloc
  rw [hkzalloc] at hallocated
  obtain ⟨hfail, h⟩ | ⟨hok, h⟩ := h
  · -- the port is not allocated
    have hresult : results .kzalloc (if console = true then 3 else 2) ≠ 0 :=
      of_decide_eq_false (hallocated.symm.trans hfail)
    obtain ⟨-, rfl⟩ := (exec_pure _ _).mp h
    refine ⟨.portAlloc, if_pos hresult, rfl, by rw [hmem], hholds.unregistered, ?_⟩
    rw [hholds.holdings, if_neg (by simp)]
    rfl
  simp only [exec_modify, exec_get, exec_onlyIf_modify, exec_pure] at h
  obtain ⟨_, _, rfl, _, _, ⟨rfl, rfl⟩, _, _, rfl, rc, y, hport, h⟩ := h
  have hresult : results .kzalloc (if console = true then 3 else 2) = 0 := by
    by_contra hnot
    exact hok (hallocated.trans (decide_eq_false hnot))
  obtain ⟨hrc, hholds', hmem', -⟩ := holds_call (p := .uartAddOnePort) trivial (by exact hdev') hport
  have hcount : (l ++ [Port.kzalloc]).count .uartAddOnePort = 0 := by
    rw [List.count_append, hadd]
    rfl
  have hrc : rc = results .uartAddOnePort 0 := by rw [hrc, hcount]; rfl
  obtain ⟨-, _, _, rfl, rfl, rfl⟩ | ⟨-, h⟩ := h
  · refine ⟨.addPort, ?_, rfl, ?_, hholds'.unregistered.trans hholds.unregistered, ?_⟩
    · rw [assignFailure, if_neg (not_not.mpr hresult), if_pos (hrc ▸ hret)]
    · rw [Config.withMem_mem, hmem']
      simp only [Config.withMem_mem, hmem]
      split <;> rfl
    · simp only [Config.withMem_mem, hmem', hmem, UartMem.holdings, true_and]
      split <;> rw [hu]
  · obtain ⟨-, _, _, -, _, _, -, _, _, -, rfl, -⟩ | ⟨-, rfl, -⟩ := h
    · exact absurd hret (by decide)
    · exact absurd hret (by decide)

/-- What `clk_prepare_enable` does with the clock. -/
theorem clkPrepareEnable_cases (hdev : u.dev.2 = l) (hprepare : l.count .clkPrepareEnable = 0)
    (h : Exec (withMemory (uartCoreCalls results)) clkPrepareEnable u ret v) :
    (ret ≠ 0 ∧ (u.mem.clk = true ∧ results .clkPrepareEnable 0 ≠ 0) ∧ Holds u v) ∨
    (ret = 0 ∧ ¬(u.mem.clk = true ∧ results .clkPrepareEnable 0 ≠ 0) ∧
      v.mem.clk = u.mem.clk ∧ unregistered v.trace = unregistered u.trace ∧
      (v.dev.2 = l ∨ v.dev.2 = l ++ [.clkPrepareEnable]) ∧
      v.mem.holdings = { u.mem.holdings with
        clkPrepared := u.mem.clkPrepared + if u.mem.clk = true then 1 else 0
        clkEnabled := u.mem.clkEnabled + if u.mem.clk = true then 1 else 0 }) := by
  rw [clkPrepareEnable, exec_get_bind] at h
  simp only [exec_ite, exec_bind_iff, exec_pure, exec_onlyIf_modify] at h
  obtain ⟨hclk, rfl, rfl⟩ | ⟨hclk, rc, w, hport, _, _, rfl, rfl, rfl⟩ := h
  · refine .inr ⟨rfl, by simp [hclk], rfl, rfl, .inl hdev, ?_⟩
    simp [UartMem.holdings, hclk]
  have hclk := Bool.of_not_eq_false hclk
  obtain ⟨hrc, hholds, hmem, hdev'⟩ := holds_call (p := .clkPrepareEnable) trivial hdev hport
  have hrc : ret = results .clkPrepareEnable 0 := by rw [hrc, hprepare]; rfl
  by_cases hret : ret = 0
  · refine .inr ⟨hret, ?_, ?_, hholds.unregistered, .inr hdev', ?_⟩
    · exact fun hfail => hfail.2 (hrc ▸ hret)
    · rw [Config.withMem_mem, if_pos hret, hmem]
      rfl
    · rw [Config.withMem_mem, if_pos hret, hmem]
      simp [UartMem.holdings, hclk]
  · rw [if_neg hret]
    exact .inl ⟨hret, ⟨hclk, hrc ▸ hret⟩, hholds⟩

/-- At `err_out_clk_disable` all that the probe has acquired is given back, except
`console_port`. -/
theorem assigned_unwound (hassign : Exec (withMemory (uartCoreCalls results)) (uliteAssign console) w ret v)
    (herr : Exec (withMemory (uartCoreCalls results)) (errOutClkDisable ret) v x s) (hret : ret < 0)
    (hu : Idle u) (hclk : w.mem.clk = u.mem.clk)
    (hheld : w.mem.holdings = { u.mem.holdings with
      clkPrepared := u.mem.clkPrepared + if u.mem.clk = true then 1 else 0
      clkEnabled := u.mem.clkEnabled + if u.mem.clk = true then 1 else 0
      pmEnabled := true
      uliteUartDriver := true })
    (hnone : unregistered w.trace = unregistered u.trace) (hdev : w.dev.2 = l)
    (hkzalloc : l.count .kzalloc = if console = true then 3 else 2)
    (hadd : l.count .uartAddOnePort = 0) :
    ∃ point, assignFailure console results = some point ∧ Unwound console point u s := by
  have hdrvdata : w.mem.drvdata = false := (congrArg Holdings.drvdata hheld).trans hu.drvdata
  obtain ⟨point, hpoint, hdriver, hclk', hnone', hassigned⟩ :=
    assign_fails hret hdrvdata hdev hkzalloc hadd hassign
  obtain ⟨-, -, hend, hdrivers⟩ := errOutClkDisable_unwinds herr
  have hconsole : w.mem.consolePort = u.mem.consolePort := congrArg Holdings.consolePort hheld
  have hprepared : v.mem.clkPrepared = u.mem.clkPrepared + if u.mem.clk = true then 1 else 0 :=
    (congrArg Holdings.clkPrepared hassigned).trans (congrArg Holdings.clkPrepared hheld)
  have henabled : v.mem.clkEnabled = u.mem.clkEnabled + if u.mem.clk = true then 1 else 0 :=
    (congrArg Holdings.clkEnabled hassigned).trans (congrArg Holdings.clkEnabled hheld)
  have hpointer : v.mem.uliteUartDriver = true :=
    (congrArg Holdings.uliteUartDriver hassigned).trans (congrArg Holdings.uliteUartDriver hheld)
  refine ⟨point, hpoint, ?_, ?_, ?_, ?_, ?_, ?_⟩
  · rw [← hconsole]
    exact (congrArg Holdings.consolePort hend).trans (congrArg Holdings.consolePort hassigned)
  · rw [hu.drvdata, ← hdrvdata]
    exact (congrArg Holdings.drvdata hend).trans (congrArg Holdings.drvdata hassigned)
  · refine (congrArg Holdings.clkPrepared hend).trans ?_
    rw [hprepared, hclk', hclk]
    exact Int.add_sub_cancel _ _
  · refine (congrArg Holdings.clkEnabled hend).trans ?_
    rw [henabled, hclk', hclk]
    exact Int.add_sub_cancel _ _
  · rw [hu.pmEnabled]
    exact congrArg Holdings.pmEnabled hend
  · rw [hdrivers, hnone', hnone, hpointer, hdriver]

/-- How the probe fails from `clk_prepare_enable` on. -/
theorem probeClocked_fails (hret : ret ≠ 0) (hu : Idle u) (hdev : u.dev.2 = l)
    (hkzalloc : l.count .kzalloc = if console = true then 3 else 2)
    (hprepare : l.count .clkPrepareEnable = 0) (hadd : l.count .uartAddOnePort = 0)
    (h : Exec (withMemory (uartCoreCalls results)) (probeClocked console) u ret v) :
    ∃ point, clockedFailure console results u.mem.clk = some point ∧ Unwound console point u v := by
  simp only [probeClocked, exec_bind_iff, exec_ite, exec_modify, exec_pure] at h
  obtain ⟨rc, w, hclk, h⟩ := h
  obtain ⟨hrc, hfail, hholds⟩ | ⟨hrc, hok, hsame, hnone, hdev', hholdings⟩ :=
    clkPrepareEnable_cases hdev hprepare hclk
  · obtain ⟨-, herr⟩ | ⟨hnot, -⟩ := h
    · exact ⟨.clkPrepare, if_pos hfail,
        hholds.unwound (errOutUnregisterDriver_unwound rfl (hholds.idle hu) herr)⟩
    · exact absurd hrc hnot
  obtain ⟨hnot, -⟩ | ⟨-, _, x, hsetup, _, _, rfl, rc', y, hassign, h⟩ := h
  · exact absurd hrc hnot
  rw [pmRuntimeSetup, exec_modify] at hsetup
  subst hsetup
  obtain ⟨hneg, herr⟩ | ⟨-, rfl, -⟩ := h
  · have hkeep : ∀ p : Port, p ≠ .clkPrepareEnable → w.dev.2.count p = l.count p := by
      intro p hp
      obtain hdev' | hdev' := hdev'
      · rw [hdev']
      · rw [hdev', List.count_append, List.count_singleton, if_neg (by simpa using hp.symm)]
        rfl
    rw [clockedFailure, if_neg hok]
    refine assigned_unwound hassign herr hneg hu hsame ?_ hnone rfl
      ((hkeep _ (by simp)).trans hkzalloc) ((hkeep _ (by simp)).trans hadd)
    exact congrArg (fun h => { h with pmEnabled := true, uliteUartDriver := true }) hholdings
  · exact absurd rfl hret

/-- The calls up to the registration of the driver. -/
def registeredCalls (console : Bool) : List Port :=
  [.kzalloc, .kzalloc, .kasprintf] ++ (if console = true then [.kzalloc] else []) ++
    [.uartRegisterDriver]

/-- How it fails from `platform_get_resource` on. -/
theorem probeRegistered_fails (hret : ret ≠ 0) (hu : Idle u) (hdev : u.dev.2 = registeredCalls console)
    (h : Exec (withMemory (uartCoreCalls results)) (probeRegistered console) u ret v) :
    ∃ point, registeredFailure console results = some point ∧ Unwound console point u v := by
  simp only [probeRegistered, exec_bind_iff, exec_ite] at h
  obtain ⟨res, w, hcall, h⟩ := h
  obtain ⟨hres, hholds, -, hdev⟩ := holds_call (p := .platformGetResource) trivial hdev hcall
  have hcount : (registeredCalls console).count .platformGetResource = 0 := by
    cases console <;> rfl
  rw [hcount] at hres
  obtain ⟨hfail, herr⟩ | ⟨hok, irq, x, hcall, h⟩ := h
  · have hresult : results .platformGetResource 0 ≠ 0 := of_decide_eq_false (hres.symm.trans hfail)
    exact ⟨.resource, if_pos hresult,
      hholds.unwound (errOutUnregisterDriver_unwound rfl (hholds.idle hu) herr)⟩
  have hresult : ¬results .platformGetResource 0 ≠ 0 :=
    fun hnot => hok (hres.trans (decide_eq_false hnot))
  rw [registeredFailure, if_neg hresult]
  obtain ⟨hirq, hholds', -, hdev⟩ := holds_call (p := .platformGetIrq) trivial hdev hcall
  have hholds := hholds.trans hholds'
  have hcount : (registeredCalls console ++ [Port.platformGetResource]).count .platformGetIrq = 0 := by
    cases console <;> rfl
  rw [hcount] at hirq
  have hirq : irq = results .platformGetIrq 0 := hirq
  obtain ⟨hfail, herr⟩ | ⟨hok, clk, y, hcall, h⟩ := h
  · exact ⟨.irq, if_pos (hirq ▸ hfail),
      hholds.unwound (errOutUnregisterDriver_unwound rfl (hholds.idle hu) herr)⟩
  rw [if_neg (hirq ▸ hok)]
  obtain ⟨hclk, hholds', -, hdev⟩ := holds_call (p := .clkGet) trivial hdev hcall
  have hholds := hholds.trans hholds'
  have hcount : (registeredCalls console ++ [Port.platformGetResource] ++
      [Port.platformGetIrq]).count .clkGet = 0 := by
    cases console <;> rfl
  rw [hcount] at hclk
  have hclocked : ∀ b (z : CallSys), Exec (withMemory (uartCoreCalls results))
      (modify fun d => { d with clk := b } : Ulite Unit) y () z →
      Exec (withMemory (uartCoreCalls results)) (probeClocked console) z ret v →
      ∃ point, clockedFailure console results b = some point ∧ Unwound console point u v := by
    intro b z hset hrun
    obtain rfl := (exec_modify _ _).mp hset
    have hholds := hholds.trans (holds_withMem (d := { y.mem with clk := b }) rfl)
    obtain ⟨point, hpoint, hunwound⟩ := probeClocked_fails hret (hholds.idle hu) hdev
      (by cases console <;> rfl) (by cases console <;> rfl) (by cases console <;> rfl) hrun
    exact ⟨point, hpoint, hholds.unwound hunwound⟩
  cases clk with
  | ok _ =>
    obtain ⟨_, z, hset, hrun⟩ := (exec_bind_iff _ _ _).mp h
    have hresult : 0 ≤ results .clkGet 0 := by
      by_contra hneg
      rw [Port.reply, if_pos (Int.not_le.mp hneg)] at hclk
      cases hclk
    rw [if_pos hresult]
    exact hclocked true z hset hrun
  | error e =>
    have hresult : results .clkGet 0 < 0 ∧ e = results .clkGet 0 := by
      rw [Port.reply] at hclk
      split at hclk
      · exact ⟨by assumption, Except.error.inj hclk⟩
      · cases hclk
    rw [if_neg (Int.not_le.mpr hresult.1), ← hresult.2]
    simp only [exec_bind_iff, exec_ite] at h
    obtain ⟨hother, herr⟩ | ⟨hnone, _, z, hset, hrun⟩ := h
    · exact ⟨.clkGet, if_pos hother,
        hholds.unwound (errOutUnregisterDriver_unwound rfl (hholds.idle hu) herr)⟩
    · rw [if_neg hnone]
      exact hclocked false z hset hrun

theorem registered_of_failure {point : FailurePoint}
    (h : registeredFailure console results = some point) : point.registered := by
  simp only [registeredFailure, clockedFailure, assignFailure] at h
  split_ifs at h <;> obtain rfl := Option.some.inj h <;> exact ⟨by decide, by decide, by decide⟩

theorem calls_le {α : Type} {q : Ulite α} {a : α}
    (h : Exec (withMemory (uartCoreCalls results)) q u a v) : u.dev.2 <+: v.dev.2 := by
  have hlogged : (uartCoreCalls results).Refines uartCore.logged id := by
    rintro e p x e' ⟨⟨k, hk⟩, hlog⟩
    exact ⟨⟨_, hk⟩, hlog⟩
  exact exec_history ((withMemory_refines hlogged).exec q h)

/-- How it fails once it has an identifier. -/
theorem probeNamed_fails (hret : ret ≠ 0) (hu : Idle u) (hdev : u.dev.2 = [.kzalloc, .kzalloc])
    (h : Exec (withMemory (uartCoreCalls results)) (probeNamed console) u ret v) :
    ∃ point, probeFailure console results = some point ∧ Unwound console point u v ∧
      (point.registered ↔ .uartRegisterDriver ∈ v.dev.2 ∧ 0 ≤ results .uartRegisterDriver 0) := by
  simp only [probeNamed, exec_bind_iff, exec_ite] at h
  obtain ⟨named, w, hcall, h⟩ := h
  obtain ⟨hname, hholds, -, hdev⟩ := holds_call (p := .kasprintf) trivial hdev hcall
  obtain ⟨hfail, herr⟩ | ⟨hok, allocated, x, hconsole, h⟩ := h
  · have hresult : results .kasprintf 0 ≠ 0 := of_decide_eq_false (hname.symm.trans hfail)
    refine ⟨.name, if_pos hresult, hholds.unwound (errOutId_unwound rfl herr), ?_⟩
    obtain ⟨-, -, hend⟩ := errOutId_holds herr
    rw [hend, hdev]
    simp [FailurePoint.registered]
  have hresult : ¬results .kasprintf 0 ≠ 0 := fun hnot => hok (hname.trans (decide_eq_false hnot))
  rw [probeFailure, if_neg hresult]
  have halloc : (allocated = true ↔ ¬(console = true ∧ results .kzalloc 2 ≠ 0)) ∧ Holds w x ∧
      x.dev.2 = [.kzalloc, .kzalloc, .kasprintf] ++ if console = true then [.kzalloc] else [] := by
    cases console with
    | false =>
      obtain ⟨rfl, rfl⟩ := (exec_pure _ _).mp hconsole
      exact ⟨by simp, ⟨rfl, rfl⟩, hdev⟩
    | true =>
      obtain ⟨hreply, hholds', -, hdev'⟩ := holds_call (p := .kzalloc) trivial hdev hconsole
      have hreply : allocated = decide (results .kzalloc 2 = 0) := hreply
      exact ⟨by simp [hreply], hholds', hdev'⟩
  obtain ⟨halloc, hholds', hdev⟩ := halloc
  have hholds := hholds.trans hholds'
  obtain ⟨hfail, herr⟩ | ⟨hok, rc, y, hregister, h⟩ := h
  · have hresult : console = true ∧ results .kzalloc 2 ≠ 0 := by
      by_contra hnot
      rw [halloc.mpr hnot] at hfail
      cases hfail
    refine ⟨.console, if_pos hresult, hholds.unwound (errOutId_unwound rfl herr), ?_⟩
    obtain ⟨-, -, hend⟩ := errOutId_holds herr
    rw [hend, hdev, if_pos hresult.1]
    simp [FailurePoint.registered]
  rw [if_neg (halloc.mp (Bool.of_not_eq_false hok))]
  simp only [uartRegisterDriver, exec_bind_iff, exec_onlyIf_modify, exec_pure] at hregister
  obtain ⟨_, z, hcall, _, _, rfl, rfl, rfl⟩ := hregister
  obtain ⟨hrc, hholds', -, hdev⟩ := holds_call (p := .uartRegisterDriver) trivial hdev hcall
  have hcount : ([Port.kzalloc, .kzalloc, .kasprintf] ++
      if console = true then [Port.kzalloc] else []).count .uartRegisterDriver = 0 := by
    cases console <;> rfl
  rw [hcount] at hrc
  have hrc : rc = results .uartRegisterDriver 0 := hrc
  have hholds := (hholds.trans hholds').trans (holds_withMem
    (d := if 0 ≤ rc then { z.mem with driverRegistered := true } else z.mem) (by split <;> rfl))
  obtain ⟨hneg, herr⟩ | ⟨hnonneg, h⟩ := h
  · refine ⟨.register, if_pos (hrc ▸ hneg), hholds.unwound (errOutId_unwound rfl herr), ?_⟩
    refine iff_of_false (by simp [FailurePoint.registered]) fun h => ?_
    omega
  · obtain ⟨point, hpoint, hunwound⟩ := probeRegistered_fails hret (hholds.idle hu) hdev h
    rw [if_neg (hrc ▸ hnonneg)]
    refine ⟨point, hpoint, hholds.unwound hunwound, iff_of_true (registered_of_failure hpoint) ?_⟩
    refine ⟨(calls_le h).subset ?_, by omega⟩
    rw [Config.withMem_dev, hdev]
    exact List.mem_append_right _ (List.mem_singleton.mpr rfl)

end Failures

section Atomic

variable {results : Port → ℕ → ℤ} {console : Bool} {aliases : AliasList} {pdev : PlatformDevice}
  {s t u : CallSys} {ret : ℤ}

structure BeforeProbe (s : CallSys) : Prop where
  idle : Idle s
  id : s.mem.id = none
  consolePort : s.mem.consolePort ≠ .thisPort
  calls : s.dev.2 = []

/-- A probe that fails has left everything as it was before, apart from alias bits. -/
structure Atomic (results : Port → ℕ → ℤ) (s t : CallSys) : Prop where
  driver : unregistered t.trace = unregistered s.trace ++
    if .uartRegisterDriver ∈ t.dev.2 ∧ 0 ≤ results .uartRegisterDriver 0 then [true] else []
  consolePort : t.mem.consolePort ≠ .thisPort
  drvdata : t.mem.drvdata = false
  clkPrepared : t.mem.clkPrepared = s.mem.clkPrepared
  clkEnabled : t.mem.clkEnabled = s.mem.clkEnabled
  pmEnabled : t.mem.pmEnabled = s.mem.pmEnabled
  bitmap : ∀ n < maxUartInstances, t.mem.ids.aliasBitmap n = false →
    t.mem.ids.bitmap n = s.mem.ids.bitmap n

/-- The device asks for no number, or for one that is not marked, reserved or too large. -/
def IdSpare (aliases : AliasList) (pdev : PlatformDevice) (ids : IdMaps) : Prop :=
  0 ≤ pdev.wantedId → maxUartInstances ≤ pdev.wantedId ∨
    (ids.listed aliases).aliasBitmap pdev.wantedId.toNat = true ∨
    ids.bitmap pdev.wantedId.toNat = false

/-- The results make the probe fail before the driver is registered, or after its pointer has
been stored; `uart_add_one_port` does not fail for the first port of a console; and the
number is spare. -/
structure ProbeSafe (console : Bool) (aliases : AliasList) (pdev : PlatformDevice)
    (results : Port → ℕ → ℤ) (s : CallSys) : Prop where
  point : probeFailure console results ∉
    [some .resource, some .irq, some .clkGet, some .clkPrepare]
  console : probeFailure console results = some .addPort → console = true →
    s.mem.consolePort ≠ .null
  id : IdSpare aliases pdev s.mem.ids

theorem IdMaps.cleared_self (ids : IdMaps) (id : ℤ) : (ids.cleared id).bitmap id.toNat = false :=
  Function.update_self ..

theorem IdMaps.cleared_of_ne (ids : IdMaps) {id : ℤ} {n : ℕ} (hne : n ≠ id.toNat) :
    (ids.cleared id).bitmap n = ids.bitmap n :=
  Function.update_of_ne hne ..

theorem IdMaps.marked_of_ne (ids : IdMaps) {m n : ℕ} (hne : n ≠ m) :
    (ids.marked m).bitmap n = ids.bitmap n :=
  Function.update_of_ne hne ..

/-- Clearing a bit keeps the bits that are not reserved if it was clear before. -/
theorem cleared_kept_iff (ids ids' : IdMaps) {id : ℤ} (hid : 0 ≤ id)
    (hkept : ∀ n < maxUartInstances, ids'.aliasBitmap n = false → n ≠ id.toNat →
      ids'.bitmap n = ids.bitmap n) :
    (∀ n < maxUartInstances, (ids'.cleared id).aliasBitmap n = false →
      (ids'.cleared id).bitmap n = ids.bitmap n) ↔
    (maxUartInstances ≤ id ∨ ids'.aliasBitmap id.toNat = true ∨ ids.bitmap id.toNat = false) := by
  constructor
  · intro h
    by_contra hnot
    obtain ⟨hlt, hnot⟩ := not_or.mp hnot
    obtain ⟨halias, hset⟩ := not_or.mp hnot
    have hbit := h id.toNat (by omega) (Bool.of_not_eq_true halias)
    rw [IdMaps.cleared_self] at hbit
    exact hset hbit.symm
  · intro hspare n hn halias
    by_cases hne : n = id.toNat
    · subst hne
      rw [IdMaps.cleared_self]
      obtain hle | hbit | hclear := hspare
      · omega
      · exact absurd (halias.symm.trans hbit) Bool.false_ne_true
      · exact hclear.symm
    · rw [IdMaps.cleared_of_ne _ hne]
      exact hkept n hn halias hne

/-- The bits after a failure. -/
theorem bitmap_kept_iff {ids ids' : IdMaps} {id : ℤ} (hstatus : aliases.status ≤ 0) (hid : 0 ≤ id)
    (h : GotId aliases pdev ids id ids') :
    (∀ n < maxUartInstances, (ids'.cleared id).aliasBitmap n = false →
      (ids'.cleared id).bitmap n = ids.bitmap n) ↔ IdSpare aliases pdev ids := by
  have hlisted : ∀ n < maxUartInstances, (ids.listed aliases).aliasBitmap n = false →
      (ids.listed aliases).bitmap n = ids.bitmap n := by
    intro n hn halias
    have hbits : (ids.listed aliases).bitmap n = (ids.bitmap n ||
      (decide (n < maxUartInstances) && (ids.listed aliases).aliasBitmap n)) := rfl
    rw [hbits, halias, Bool.and_false, Bool.or_false]
  cases h with
  | unlisted => omega
  | wanted hlist =>
    rw [cleared_kept_iff ids _ hid fun n hn halias _ => hlisted n hn halias, IdSpare,
      forall_prop_of_true hid]
  | full => exact absurd hid (by decide)
  | free hlist hwanted n hn hfree =>
    rw [cleared_kept_iff ids _ hid fun m hm halias hne => ?_]
    · refine iff_of_true (.inr (.inr ?_)) fun hpos => absurd hwanted (Int.not_lt.mpr hpos)
      have hbits : (ids.listed aliases).bitmap n = (ids.bitmap n ||
        (decide (n < maxUartInstances) && (ids.listed aliases).aliasBitmap n)) := rfl
      rw [hfree] at hbits
      exact (Bool.or_eq_false_iff.mp hbits.symm).1
    · rw [IdMaps.marked_of_ne _ (by simpa using hne)]
      exact hlisted m hm halias

/-- `ulite_get_id` only changes the bitmaps. -/
theorem holds_getId {id : ℤ} {v : CallSys}
    (h : Exec (withMemory (uartCoreCalls results)) (uliteGetId aliases pdev) u id v) :
    Holds u v ∧ v.dev = u.dev := by
  have hids : ∀ f : IdMaps → IdMaps,
      Preserves UartMem.holdings (withIds f) ∧ UsesPorts (fun _ => False) (withIds f) :=
    fun f => ⟨.modify fun _ => rfl, .bind .get fun _ => .set _⟩
  have hhold : Preserves UartMem.holdings (uliteGetId aliases pdev) := by
    refine .bind ?_ fun _ => .ite (.pure _) <| .bind (hids _).1 fun _ => .ite ?_ (.pure _)
    · exact .bind .get fun _ => .ite (.pure _) <| .bind (hids _).1 fun _ => .ite (.pure _) <|
        .bind (hids _).1 fun _ => .pure _
    · exact .iterate fun _ => .bind .get fun _ => .ite (.pure _) <|
        .bind (.bind .get fun _ => .bind (hids _).1 fun _ => .pure _) fun _ => .pure _
  have hnone : UsesPorts (fun _ => False) (uliteGetId aliases pdev) := by
    refine .bind ?_ fun _ => .ite (.pure _) <| .bind (hids _).2 fun _ => .ite ?_ (.pure _)
    · exact .bind .get fun _ => .ite (.pure _) <| .bind (hids _).2 fun _ => .ite (.pure _) <|
        .bind (hids _).2 fun _ => .pure _
    · exact .iterate fun _ => .bind .get fun _ => .ite (.pure _) <|
        .bind (.bind .get fun _ => .bind (hids _).2 fun _ => .pure _) fun _ => .pure _
  have hview : Exec (withMemory uartCore) (uliteGetId aliases pdev) (u.mapDev Prod.fst) id
      (v.mapDev Prod.fst) := (withMemory_refines_view (uartCoreCalls_refines results)).exec _ h
  exact ⟨⟨hhold.exec h, congrArg unregistered (getId_of_exec hview).2.2⟩, hnone.dev_eq h⟩

/-- How a probe fails after `ulite_get_id`. -/
theorem probe_fails (hs : BeforeProbe s)
    (h : Exec (withMemory (uartCoreCalls results)) (uliteProbe console aliases pdev) s ret t)
    (hgot : ∃ id, t.mem.id = some id ∧ 0 ≤ id) (hfail : ret ≠ 0) :
    ∃ point, probeFailure console results = some point ∧ Unwound console point s t ∧
      (point.registered ↔ .uartRegisterDriver ∈ t.dev.2 ∧ 0 ≤ results .uartRegisterDriver 0) := by
  obtain ⟨id, hid, hpos⟩ := hgot
  simp only [uliteProbe, exec_bind_iff, exec_ite, exec_modify, exec_pure] at h
  obtain ⟨_, v, hdata, h⟩ := h
  obtain ⟨-, hholds, hmem, hdev⟩ := holds_call (p := .kzalloc) trivial hs.calls hdata
  obtain ⟨-, -, rfl⟩ | ⟨-, _, w, hdriver, h⟩ := h
  · rw [hmem, hs.id] at hid
    cases hid
  obtain ⟨-, hholds', hmem', hdev⟩ := holds_call (p := .kzalloc) trivial hdev hdriver
  obtain ⟨-, -, rfl⟩ | ⟨-, id', x, hget, _, _, rfl, h⟩ := h
  · rw [hmem', hmem, hs.id] at hid
    cases hid
  obtain ⟨hholds'', hsame⟩ := holds_getId hget
  have hholds := ((hholds.trans hholds').trans hholds'').trans
    (holds_withMem (d := { x.mem with id := some id' }) rfl)
  obtain ⟨hneg, -, rfl⟩ | ⟨-, h⟩ := h
  · obtain rfl := Option.some.inj hid
    omega
  · have hcalls : x.dev.2 = [.kzalloc, .kzalloc] := by rw [hsame, hdev]; rfl
    obtain ⟨point, hpoint, hunwound, hregistered⟩ :=
      probeNamed_fails hfail (hholds.idle hs.idle) hcalls h
    exact ⟨point, hpoint, hholds.unwound hunwound, hregistered⟩

/-- The driver is unregistered by its pointer, unless the failure lies between its
registration and the store of the pointer. -/
theorem FailurePoint.driver_iff (point : FailurePoint) {before after : List Bool} {reg : Prop}
    [Decidable reg] (hregistered : point.registered ↔ reg)
    (hdrivers : after = before ++ point.unregisters) :
    after = before ++ (if reg then [true] else []) ↔
      some point ∉ [some .resource, some .irq, some .clkGet, some .clkPrepare] := by
  rw [hdrivers, List.append_right_inj]
  by_cases hreg : reg
  · rw [if_pos hreg]
    have hpoint := hregistered.mpr hreg
    cases point with
    | name => exact absurd rfl hpoint.1
    | console => exact absurd rfl hpoint.2.1
    | register => exact absurd rfl hpoint.2.2
    | _ => simp [FailurePoint.unregisters]
  · rw [if_neg hreg]
    have hpoint := mt hregistered.mp hreg
    cases point <;> simp_all [FailurePoint.registered, FailurePoint.unregisters]

theorem Unwound.consolePort_iff {point : FailurePoint} (h : Unwound console point s t)
    (hs : s.mem.consolePort ≠ .thisPort) : t.mem.consolePort ≠ .thisPort ↔
      ¬(point = .addPort ∧ console = true ∧ s.mem.consolePort = .null) := by
  rw [h.consolePort]
  split
  · exact iff_of_false (fun hne => hne rfl) (not_not.mpr ‹_›)
  · exact iff_of_true hs ‹_›

theorem bitmap_iff (hstatus : aliases.status ≤ 0) (hs : BeforeProbe s)
    (h : Exec (withMemory (uartCoreCalls results)) (uliteProbe console aliases pdev) s ret t)
    (hgot : ∃ id, t.mem.id = some id ∧ 0 ≤ id) (hfail : ret ≠ 0) :
    (∀ n < maxUartInstances, t.mem.ids.aliasBitmap n = false →
      t.mem.ids.bitmap n = s.mem.ids.bitmap n) ↔ IdSpare aliases pdev s.mem.ids := by
  obtain ⟨id, hid, hpos⟩ := hgot
  have hview : Exec (withMemory uartCore) (uliteProbe console aliases pdev) (s.mapDev Prod.fst) ret
      (t.mapDev Prod.fst) := (withMemory_refines_view (uartCoreCalls_refines results)).exec _ h
  obtain ⟨-, hkept⟩ | ⟨id', ids, hids, hid', hcase⟩ := probe_ids hview
  · have hnone : t.mem.id = s.mem.id := hkept.id
    rw [hnone, hs.id] at hid
    cases hid
  obtain rfl : id' = id := Option.some.inj (hid'.symm.trans hid)
  obtain ⟨hneg, -⟩ | ⟨-, hret, -⟩ | ⟨-, -, hcleared, -⟩ := hcase
  · omega
  · exact absurd hret hfail
  · have hcleared : t.mem.ids = ids.cleared id' := hcleared
    rw [hcleared]
    exact bitmap_kept_iff hstatus hpos hids

/-- A probe that fails after `ulite_get_id` leaves everything as it was exactly if the results
make it fail where that is safe, and the number is spare. -/
theorem probe_failure_atomic_iff (console : Bool) (aliases : AliasList) (pdev : PlatformDevice)
    (results : Port → ℕ → ℤ) (hstatus : aliases.status ≤ 0) (s t : CallSys) (ret : ℤ)
    (hs : BeforeProbe s)
    (h : Exec (withMemory (uartCoreCalls results)) (uliteProbe console aliases pdev) s ret t)
    (hgot : ∃ id, t.mem.id = some id ∧ 0 ≤ id) (hfail : ret ≠ 0) :
    Atomic results s t ↔ ProbeSafe console aliases pdev results s := by
  obtain ⟨point, hpoint, hunwound, hregistered⟩ := probe_fails hs h hgot hfail
  have hdriver := point.driver_iff hregistered hunwound.drivers
  have hconsole := hunwound.consolePort_iff hs.consolePort
  have hbitmap := bitmap_iff hstatus hs h hgot hfail
  constructor
  · intro hatomic
    constructor
    · rw [hpoint]
      exact hdriver.mp hatomic.driver
    · rw [hpoint]
      rintro ⟨⟩ hbuilt hnull
      exact hconsole.mp hatomic.consolePort ⟨rfl, hbuilt, hnull⟩
    · exact hbitmap.mp hatomic.bitmap
  · intro hsafe
    constructor
    · refine hdriver.mpr ?_
      rw [← hpoint]
      exact hsafe.point
    · refine hconsole.mpr ?_
      rintro ⟨rfl, hbuilt, hnull⟩
      exact hsafe.console hpoint hbuilt hnull
    · exact hunwound.drvdata.trans hs.idle.drvdata
    · exact hunwound.clkPrepared
    · exact hunwound.clkEnabled
    · exact hunwound.pmEnabled
    · exact hbitmap.mpr hsafe.id

end Atomic

section Runs

def newDevice : CallSys := ⟨unprobed.mem, [], (unprobed.dev, [])⟩

theorem beforeProbe_newDevice : BeforeProbe newDevice := ⟨⟨rfl, rfl, rfl⟩, rfl, by decide, rfl⟩

/-- The core, as a function of what is left open. -/
def answerCalls (results : Port → ℕ → ℤ) (e : UartCalls) (k : Outcome) (p : Port) :
    Option (Port.Res p × UartCalls) :=
  answerLogged UartRegs.answer e { k with result := results p (e.2.count p) } p

theorem answerCalls_refines (results : Port → ℕ → ℤ) :
    (ofAnswer (answerCalls results)).Refines (uartCoreCalls results) id := by
  rintro e p x e' ⟨k, hk⟩
  obtain ⟨r, hr, hxe⟩ := Option.map_eq_some_iff.mp hk
  obtain ⟨rfl, rfl⟩ := Prod.mk.inj hxe
  exact ⟨⟨k, hr⟩, rfl⟩

/-- A probe without a console, with calls that have these results. -/
def probedWith (results : Port → ℕ → ℤ) : Option (ℤ × CallSys) :=
  run (onDevice (answerCalls results) fun e p => calm e.1 p) 2
    (uliteProbe false noAliases plainDevice) newDevice

theorem exec_probedWith {results : Port → ℕ → ℤ} {ret : ℤ} {t : CallSys}
    (h : probedWith results = some (ret, t)) : Exec (withMemory (uartCoreCalls results))
      (uliteProbe false noAliases plainDevice) newDevice ret t := by
  have hexec := (onDevice_refines (answerCalls results) fun e p => calm e.1 p).exec _
    ((watch_sound _ _).1 _ _ h)
  exact (withMemory_refines (answerCalls_refines results)).exec _ hexec

def noPort : Port → ℕ → ℤ
  | .kzalloc, 2 => 1
  | .platformGetIrq, _ => 5
  | _, _ => 0

def noResource : Port → ℕ → ℤ
  | .platformGetResource, _ => 1
  | _, _ => 0

/-- The state after the probe. -/
def failedWith (results : Port → ℕ → ℤ) : CallSys :=
  ((probedWith results).getD (0, newDevice)).2

/-- A probe that finds no memory for the port gives everything back. -/
theorem probe_failure_atomic_noPort : Atomic noPort newDevice (failedWith noPort) := by
  have hrun : probedWith noPort = some (-enomem, failedWith noPort) := rfl
  refine (probe_failure_atomic_iff false noAliases plainDevice noPort (by decide) newDevice _ _
    beforeProbe_newDevice (exec_probedWith hrun) ⟨0, rfl, by decide⟩ (by decide)).mpr ?_
  exact ⟨by decide, fun h => absurd h (by decide), fun h => absurd h (by decide)⟩

/-- A device without registers has its driver left registered. -/
theorem driver_left_registered : ¬∀ (console : Bool) (aliases : AliasList) (pdev : PlatformDevice)
    (results : Port → ℕ → ℤ), aliases.status ≤ 0 → ∀ (s t : CallSys) (ret : ℤ), BeforeProbe s →
      Exec (withMemory (uartCoreCalls results)) (uliteProbe console aliases pdev) s ret t →
      (∃ id, t.mem.id = some id ∧ 0 ≤ id) → ret ≠ 0 → Atomic results s t := by
  have hrun : probedWith noResource = some (-enodev, failedWith noResource) := rfl
  intro h
  have hatomic := h false noAliases plainDevice noResource (by decide) newDevice _ _
    beforeProbe_newDevice (exec_probedWith hrun) ⟨0, rfl, by decide⟩ (by decide)
  exact absurd hatomic.driver (by decide)

end Runs

end PynqPrio.Uart
