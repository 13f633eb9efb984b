import PynqPrio.GpioPower

/-!
# The life cycle of the GPIO driver

What a probe that fails, or a probe and the removal after it, leave with the kernel. The
labels of the probe do not unregister the chips, and `xgpio_remove` knows the first channel
only and nothing of the interrupts.
-/
namespace PynqPrio.Gpio
open Programs Programs.Driver Programs.Prog

def ofMmGpiochipRemove (c : Channel) : Xgpio Unit :=
  modify fun d => { d with registered := fun c' => if c' = c then false else d.registered c' }

def clkUnprepare (c : Channel) : Xgpio Unit := do
  let chip ← instanceOf c
  onlyIf (chip.clk = true) (modify fun d => { d with clkPrepared := d.clkPrepared - 1 })

/-- `pm_runtime_suspended` is false while runtime PM is disabled. -/
def xgpioRemove : Xgpio ℤ := do
  let d ← get
  let c := d.drvdata.getD .first
  ofMmGpiochipRemove c
  let d ← get
  onlyIf (¬(d.pmActive = false ∧ d.pmEnabled = true)) (clkDisable c)
  clkUnprepare c
  pmRuntimeDisable
  return 0

section LifeCycle

/-- The core, with kernel functions that answer as given. -/
def gpioCoreWith (results : Port → Kernel) : Machine Port Port.Res GpioRegs :=
  ofAnswer fun d (_ : Unit) p => d.answer (results p) p

theorem gpioCoreWith_refines (results : Port → Kernel) : (gpioCoreWith results).Refines gpioCore id := by
  intro d p x e h
  obtain ⟨_, hk⟩ := h
  exact ⟨_, hk⟩

theorem exec_core {results : Port → Kernel} {α : Type} {p : Xgpio α} {s t : Sys GpioRegs} {a : α}
    (h : Exec (withMemory (gpioCoreWith results)) p s a t) : Exec (withMemory gpioCore) p s a t :=
  (withMemory_refines (gpioCoreWith_refines results)).exec _ h

/-- A device before its probe: nothing of it is with the kernel. -/
structure Unbound (s : Sys GpioRegs) : Prop where
  registered : ∀ c, s.mem.registered c = false
  descriptors : ∀ irq, s.mem.chipData irq = none
  handlers : ∀ irq, s.mem.chainedHandler irq = true → s.mem.handlerData irq = none
  pmEnabled : s.mem.pmEnabled = false

/-- Nothing is left with the kernel that was not there before. The interrupt domains have no
pointer to a channel. -/
structure LeftClean (s t : Sys GpioRegs) : Prop where
  registered : ∀ c, t.mem.registered c = false
  descriptors : ∀ irq, t.mem.chipData irq = none
  handlers : ∀ irq, t.mem.chainedHandler irq = true → t.mem.handlerData irq = none
  clkPrepared : t.mem.clkPrepared = s.mem.clkPrepared
  clkEnabled : t.mem.clkEnabled = s.mem.clkEnabled
  pmEnabled : t.mem.pmEnabled = s.mem.pmEnabled

/-- The kernel functions answer such that the chip of the first channel gets registered. -/
structure RegistersFirst (results : Port → Kernel) : Prop where
  kzalloc : (results (.kzalloc .first)).alloc = true
  clk : match (results .clkGet).clkError with
    | none => (results .clkPrepareEnable).status = 0
    | some e => -(e : ℤ) - 1 = -enoent ∨ -(e : ℤ) - 1 = -eprobeDefer
  ioremap : (results (.ioremap .first)).status = 0
  gpiochipAdd : (results (.gpiochipAdd .first)).status = 0

/-- What the interrupt descriptors have of the driver. -/
structure Links where
  chipData : ℤ → Option Channel
  handlerData : ℕ → Option Channel
  chainedHandler : ℕ → Bool

def GpioMem.links (d : GpioMem) : Links := ⟨d.chipData, d.handlerData, d.chainedHandler⟩

/-- The chips, the clock and the state of runtime PM. -/
structure Account where
  registered : Channel → Bool
  drvdata : Option Channel
  clk : Bool
  clkPrepared : ℤ
  clkEnabled : ℤ
  pmEnabled : Bool
  pmActive : Bool

def GpioMem.account (d : GpioMem) : Account :=
  ⟨d.registered, d.drvdata, (d.chip .first).clk, d.clkPrepared, d.clkEnabled, d.pmEnabled,
    d.pmActive⟩

namespace Account

/-- `n` more prepares and enables, if there is a clock. -/
def clocked (a : Account) (n : ℤ) : Account :=
  { a with
    clkPrepared := if a.clk = true then a.clkPrepared + n else a.clkPrepared
    clkEnabled := if a.clk = true then a.clkEnabled + n else a.clkEnabled }

theorem clocked_of_clk {a : Account} (h : a.clk = true) (n : ℤ) : a.clocked n =
    { a with clkPrepared := a.clkPrepared + n, clkEnabled := a.clkEnabled + n } := by
  rw [clocked, if_pos h, if_pos h]

theorem clocked_of_not_clk {a : Account} (h : ¬a.clk = true) (n : ℤ) : a.clocked n = a := by
  rw [clocked, if_neg h, if_neg h]

theorem clocked_back (a : Account) (n : ℤ) : (a.clocked n).clocked (-n) = a := by
  by_cases h : a.clk = true
  · have hclk : (a.clocked n).clk = true := h
    rw [clocked_of_clk hclk, clocked_of_clk h]
    simp only [Int.add_neg_cancel_right]
  · have hclk : ¬(a.clocked n).clk = true := h
    rw [clocked_of_not_clk hclk, clocked_of_not_clk h]

def register (a : Account) (c : Channel) (b : Bool) : Account :=
  { a with registered := fun c' => if c' = c then b else a.registered c' }

end Account

variable {dt : DeviceTree} {results : Port → Kernel} {c : Channel} {s t u v : Sys GpioRegs} {ret : ℤ}

theorem account_update (d : GpioMem) (c : Channel) {f : XgpioInstance → XgpioInstance}
    (hf : ∀ chip, (f chip).clk = chip.clk) : (d.update c f).account = d.account := by
  have hclk : ((d.update c f).chip .first).clk = (d.chip .first).clk := by
    by_cases hc : Channel.first = c
    · rw [← hc, GpioMem.update_self, hf]
    · rw [GpioMem.update_of_ne d f hc]
  rw [GpioMem.account, hclk]
  rfl

/-! Functions that keep the account. -/

theorem account_instanceOf (c : Channel) : Preserves GpioMem.account (instanceOf c) :=
  .bind .get fun _ => .pure _

theorem account_saveRegs (c : Channel) : Preserves GpioMem.account (xgpioSaveRegs c) := by
  refine .bind (account_instanceOf c) fun chip => .ite ?_ ?_
  · refine .bind (.port _) fun state => .bind (.modify fun d => ?_) fun _ =>
      .bind (.port _) fun dir => .modify fun d => ?_
    · exact account_update d c fun _ => rfl
    · exact account_update d c fun _ => rfl
  · exact .bind (.port _) fun _ => .port _

theorem account_irqSetup (dt : DeviceTree) (c : Channel) :
    Preserves GpioMem.account (xgpioIrqSetup dt c) := by
  refine .ite (.pure _) <| .bind (account_instanceOf c) fun chip =>
    .bind (.port _) fun base => .bind (.modify fun d => ?_) fun _ => .ite (.pure _) ?_
  · exact account_update d c fun _ => rfl
  · refine .bind (.modify fun d => ?_) fun _ => .bind (account_instanceOf c) fun _ =>
      .bind (.forM _ fun _ => .modify fun _ => rfl) fun _ => .bind (.modify fun _ => rfl) fun _ =>
      .bind (.modify fun _ => rfl) fun _ => .pure _
    exact account_update d c fun _ => rfl

/-! Functions that keep the links. -/

theorem links_saveRegs (c : Channel) : Preserves GpioMem.links (xgpioSaveRegs c) := by
  refine .bind (.bind .get fun _ => .pure _) fun chip => .ite ?_ ?_
  · exact .bind (.port _) fun _ => .bind (.modify fun _ => rfl) fun _ =>
      .bind (.port _) fun _ => .modify fun _ => rfl
  · exact .bind (.port _) fun _ => .port _

theorem links_clkPrepareEnable (c : Channel) : Preserves GpioMem.links (clkPrepareEnable c) := by
  refine .bind (.bind .get fun _ => .pure _) fun chip => .ite (.pure _) ?_
  exact .bind (.port _) fun _ => .ite (.bind (.modify fun _ => rfl) fun _ => .pure _) (.pure _)

theorem links_gpiochipAdd (c : Channel) : Preserves GpioMem.links (ofMmGpiochipAdd c) := by
  refine .bind (.port _) fun mapped => .ite (.pure _) ?_
  refine .bind (links_saveRegs c) fun _ => .bind (.port _) fun _ => ?_
  exact .ite (.bind (.modify fun _ => rfl) fun _ => .pure _) (.pure _)

theorem links_errUnprepareClk (c : Channel) (status : ℤ) :
    Preserves GpioMem.links (errUnprepareClk c status) := by
  refine .bind (.modify fun _ => rfl) fun _ => .bind (.bind (.bind .get fun _ => .pure _) fun _ => ?_)
    fun _ => .pure _
  exact .ite (.modify fun _ => rfl) (.pure _)

/-! What the kernel functions answer and change. -/

theorem exec_kzalloc {x : Bool} (h : Exec (withMemory (gpioCoreWith results)) (kzalloc c) s x t) :
    x = (results (.kzalloc c)).alloc ∧ t = s := by
  obtain ⟨_, ⟨_, ⟨⟩⟩, rfl⟩ := (exec_port (R := Port.Res) (.kzalloc c) x).mp h
  exact ⟨rfl, rfl⟩

theorem exec_clkGet {x : Except ℤ Unit}
    (h : Exec (withMemory (gpioCoreWith results)) clkGet s x t) :
    (x = match (results .clkGet).clkError with
      | none => .ok ()
      | some e => .error (-(e : ℤ) - 1)) ∧ t = s := by
  obtain ⟨_, ⟨_, ⟨⟩⟩, rfl⟩ := (exec_port (R := Port.Res) .clkGet x).mp h
  exact ⟨rfl, rfl⟩

/-- The clock of the first channel is prepared and enabled, unless that fails. -/
theorem account_clkPrepareEnable
    (h : Exec (withMemory (gpioCoreWith results)) (clkPrepareEnable .first) s ret t) :
    (ret = if s.mem.account.clk = true then (results .clkPrepareEnable).status else 0) ∧
      t.mem.account = if ret = 0 then s.mem.account.clocked 1 else s.mem.account := by
  simp only [clkPrepareEnable, exec_bind_iff, exec_instanceOf, exec_ite, exec_modify,
    exec_pure] at h
  obtain ⟨_, w, ⟨rfl, rfl⟩, ⟨hclk, rfl, rfl⟩ | ⟨hclk, status, x, hport, h⟩⟩ := h
  · have hnone : ¬t.mem.account.clk = true := Bool.eq_false_iff.mp hclk
    exact ⟨(if_neg hnone).symm, by rw [if_pos rfl, Account.clocked_of_not_clk hnone]⟩
  obtain ⟨_, ⟨_, ⟨⟩⟩, rfl⟩ := (exec_port (R := Port.Res) .clkPrepareEnable status).mp hport
  have hsome : w.mem.account.clk = true := (Bool.not_eq_false _).mp hclk
  obtain ⟨hzero, _, _, rfl, rfl, rfl⟩ | ⟨hne, rfl, rfl⟩ := h
  · refine ⟨(if_pos hsome).symm, ?_⟩
    rw [if_pos hzero, Account.clocked_of_clk hsome]
    rfl
  · exact ⟨(if_pos hsome).symm, (if_neg hne).symm⟩

theorem account_clkDisableUnprepare {x : Unit}
    (h : Exec (withMemory (gpioCoreWith results)) (clkDisableUnprepare .first) s x t) :
    t.mem.account = s.mem.account.clocked (-1) := by
  simp only [clkDisableUnprepare, exec_bind_iff, exec_instanceOf, exec_ite, exec_modify,
    exec_pure] at h
  obtain ⟨_, w, ⟨rfl, rfl⟩, ⟨hclk, rfl⟩ | ⟨hclk, -, rfl⟩⟩ := h
  · rw [Account.clocked_of_clk hclk]
    rfl
  · exact (Account.clocked_of_not_clk hclk _).symm

/-- A chip is registered if its registers are mapped and `gpiochip_add` succeeds. -/
theorem account_gpiochipAdd
    (h : Exec (withMemory (gpioCoreWith results)) (ofMmGpiochipAdd c) s ret t) :
    (ret = 0 ↔ (results (.ioremap c)).status = 0 ∧ (results (.gpiochipAdd c)).status = 0) ∧
      t.mem.account = if ret = 0 then s.mem.account.register c true else s.mem.account := by
  simp only [ofMmGpiochipAdd, exec_bind_iff, exec_ite, exec_modify, exec_pure] at h
  obtain ⟨mapped, w, hmap, ⟨hfail, rfl, rfl⟩ | ⟨hok, _, x, hsave, status, y, hadd, h⟩⟩ := h
  · obtain ⟨_, ⟨_, ⟨⟩⟩, rfl⟩ := (exec_port (R := Port.Res) (.ioremap c) ret).mp hmap
    exact ⟨⟨fun hzero => absurd hzero hfail, fun hok => absurd hok.1 hfail⟩, (if_neg hfail).symm⟩
  obtain ⟨_, ⟨_, ⟨⟩⟩, rfl⟩ := (exec_port (R := Port.Res) (.ioremap c) mapped).mp hmap
  obtain ⟨_, ⟨_, ⟨⟩⟩, rfl⟩ := (exec_port (R := Port.Res) (.gpiochipAdd c) status).mp hadd
  have hkeep : x.mem.account = s.mem.account := (account_saveRegs c).exec hsave
  have hmapped := not_not.mp hok
  obtain ⟨hzero, _, _, rfl, rfl, rfl⟩ | ⟨hne, rfl, rfl⟩ := h
  · refine ⟨iff_of_true hzero ⟨hmapped, hzero⟩, ?_⟩
    rw [if_pos hzero, ← hkeep]
    rfl
  · refine ⟨iff_of_false hne fun hboth => hne hboth.2, ?_⟩
    rw [if_neg hne]
    exact hkeep

/-- Without an interrupt there is nothing to set up. -/
theorem irqSetup_unwired (hirq : dt.irq.1 = 0)
    (h : Exec (withMemory (gpioCoreWith results)) (xgpioIrqSetup dt c) s ret t) :
    ret = 0 ∧ t = s := by
  rw [xgpioIrqSetup, if_pos hirq] at h
  exact (exec_pure _ _).mp h

theorem account_errUnprepareClk {x : ℤ}
    (h : Exec (withMemory (gpioCoreWith results)) (errUnprepareClk .first ret) s x t) :
    x = ret ∧ t.mem.account = { s.mem.account.clocked (-1) with pmEnabled := false } := by
  simp only [errUnprepareClk, pmRuntimeDisable, exec_bind_iff, exec_modify, exec_pure] at h
  obtain ⟨_, _, rfl, _, u, hclk, rfl, rfl⟩ := h
  exact ⟨rfl, account_clkDisableUnprepare hclk⟩

/-! The registered chips on the way through the probe. -/

theorem registered_errPmPut {x : ℤ} (c' : Channel)
    (h : Exec (withMemory (gpioCoreWith results)) (errPmPut c' ret) s x t) :
    x = ret ∧ t.mem.registered = s.mem.registered := by
  have hkeep : Preserves GpioMem.registered (errPmPut c' ret) :=
    .bind (.modify fun _ => rfl) fun _ => .bind (.modify fun _ => rfl) fun _ =>
      .bind (.bind (.bind .get fun _ => .pure _) fun _ => .ite (.modify fun _ => rfl) (.pure _))
        fun _ => .pure _
  exact ⟨errPmPut_status (exec_core h), hkeep.exec h⟩

theorem registered_of_account (h : t.mem.account = s.mem.account) :
    t.mem.registered = s.mem.registered :=
  congrArg Account.registered h

/-- The part for the second channel keeps the registration of the first, and registers the
second if it succeeds. -/
theorem registered_probeSecond
    (h : Exec (withMemory (gpioCoreWith results)) (probeSecond dt) s ret t) :
    t.mem.registered .first = s.mem.registered .first ∧
      (ret = 0 → t.mem.registered .second = true ∧ t.mem.drvdata = s.mem.drvdata) := by
  simp only [probeSecond, exec_bind_iff, exec_ite, exec_modify, exec_pure] at h
  obtain ⟨_, w, halloc, ⟨-, rfl, rfl⟩ | ⟨-, _, _, rfl, status, x, hsetup, h⟩⟩ := h
  · obtain ⟨-, rfl⟩ := exec_kzalloc halloc
    exact ⟨rfl, fun hzero => absurd hzero (by decide)⟩
  obtain ⟨-, rfl⟩ := exec_kzalloc halloc
  have hkept := (account_irqSetup dt .second).exec hsetup
  have hregistered : x.mem.registered = w.mem.registered := congrArg Account.registered hkept
  have hdrvdata : x.mem.drvdata = w.mem.drvdata := congrArg Account.drvdata hkept
  obtain ⟨hne, herr⟩ | ⟨-, status', y, hadd, h⟩ := h
  · obtain ⟨rfl, hkeep⟩ := registered_errPmPut .second herr
    exact ⟨by rw [hkeep, hregistered], fun hzero => absurd hzero hne⟩
  obtain ⟨-, hadd⟩ := account_gpiochipAdd hadd
  obtain ⟨hne, herr⟩ | ⟨hok, _, z, hput, rfl, rfl⟩ := h
  · obtain ⟨rfl, hkeep⟩ := registered_errPmPut .second herr
    rw [if_neg hne] at hadd
    exact ⟨by rw [hkeep, registered_of_account hadd, hregistered], fun hzero => absurd hzero hne⟩
  · rw [if_pos (not_not.mp hok)] at hadd
    simp only [pmRuntimePut, exec_modify] at hput
    have hall : t.mem.registered = fun c' => if c' = .second then true else x.mem.registered c' := by
      rw [hput]
      exact congrArg Account.registered hadd
    have hdata : t.mem.drvdata = x.mem.drvdata := by
      rw [hput]
      exact congrArg Account.drvdata hadd
    refine ⟨?_, fun _ => ⟨?_, hdata.trans hdrvdata⟩⟩
    · rw [hall, ← hregistered]
      rfl
    · rw [hall]
      rfl

/-- How a probe ends: before the first chip is registered, with an error after that, or
with success on a device with two channels, with an interrupt, or with neither. -/
inductive ProbeEnd (dt : DeviceTree) (ok : Prop) (s : Sys GpioRegs) (ret : ℤ)
    (t : Sys GpioRegs) : Prop
  | early (hok : ¬ok) (hret : ret ≠ 0) (hlinks : t.mem.links = s.mem.links)
      (haccount : ∃ b, (b = false ∨ b = s.mem.pmEnabled) ∧ ∃ active data clk,
        t.mem.account = { s.mem.account with
          pmEnabled := b
          pmActive := active
          drvdata := data
          clk := clk })
  | late (hok : ok) (hret : ret ≠ 0) (hregistered : t.mem.registered .first = true)
      (hmore : dt.dual = true ∨ dt.irq.1 ≠ 0)
  | dual (hok : ok) (hret : ret = 0) (hdual : dt.dual = true)
      (hregistered : t.mem.registered .second = true) (hdata : t.mem.drvdata = some .first)
  | wired (hok : ok) (hret : ret = 0) (hdual : dt.dual = false) (hirq : dt.irq.1 ≠ 0)
      (hchained : t.mem.chainedHandler dt.irq.2 = true)
      (hdata : t.mem.handlerData dt.irq.2 = some .first)
  | bare (hok : ok) (hret : ret = 0) (hdual : dt.dual = false) (hirq : dt.irq.1 = 0)
      (hlinks : t.mem.links = s.mem.links)
      (haccount : ∃ clk, t.mem.account = { ({ s.mem.account with clk := clk }.clocked 1).register
          .first true with
        drvdata := some .first
        pmEnabled := true
        pmActive := true })

/-- The answers from the clock on. -/
structure RegistersClocked (clk : Bool) (results : Port → Kernel) : Prop where
  clk : clk = true → (results .clkPrepareEnable).status = 0
  ioremap : (results (.ioremap .first)).status = 0
  gpiochipAdd : (results (.gpiochipAdd .first)).status = 0

/-- An interrupt that is wired gets a handler that refers to the channel. -/
theorem chained_irqSetup (hirq : dt.irq.1 ≠ 0)
    (h : Exec (withMemory (gpioCoreWith results)) (xgpioIrqSetup dt c) s 0 t) :
    t.mem.chainedHandler dt.irq.2 = true ∧ t.mem.handlerData dt.irq.2 = some c := by
  obtain ⟨base, hbase⟩ := wiring_irqSetup hirq (exec_core h)
  constructor
  · rw [show t.mem.chainedHandler = _ from congrArg Wiring.chainedHandler hbase]
    exact if_pos rfl
  · rw [show t.mem.handlerData = _ from congrArg Wiring.handlerData hbase]
    exact if_pos rfl

/-- The end of a probe that has registered the chip of the first channel. -/
theorem registered_end {ok : Prop} {w : Sys GpioRegs} {clk : Bool} (hok : ok)
    (hlinks : w.mem.links = s.mem.links)
    (haccount : w.mem.account = { ({ s.mem.account with clk := clk }.clocked 1).register
        .first true with
      drvdata := some .first
      pmEnabled := true
      pmActive := true })
    (h : Exec (withMemory (gpioCoreWith results)) (do
      let status ← xgpioIrqSetup dt .first
      if status ≠ 0 then errPmPut .first status
      else if dt.dual = true then probeSecond dt
      else
        pmRuntimePut
        return 0) w ret t) :
    ProbeEnd dt ok s ret t := by
  simp only [exec_bind_iff, exec_ite, exec_pure] at h
  obtain ⟨status, x, hsetup, h⟩ := h
  have hsetup' := (account_irqSetup dt .first).exec hsetup
  have hfirst : x.mem.registered .first = true := by
    rw [show x.mem.registered = _ from congrArg Account.registered hsetup', haccount]
    rfl
  have hdata : x.mem.drvdata = some .first := by
    rw [show x.mem.drvdata = _ from congrArg Account.drvdata hsetup', haccount]
  obtain ⟨hne, herr⟩ | ⟨hset, h⟩ := h
  · obtain ⟨rfl, hkeep⟩ := registered_errPmPut .first herr
    refine .late hok hne (by rw [hkeep, hfirst]) (.inr fun hirq => hne ?_)
    exact (irqSetup_unwired hirq hsetup).1
  obtain ⟨hdual, hrun⟩ | ⟨hdual, _, y, hput, rfl, rfl⟩ := h
  · obtain ⟨hkeep, hsecond⟩ := registered_probeSecond hrun
    by_cases hret : ret = 0
    · exact .dual hok hret hdual (hsecond hret).1 ((hsecond hret).2.trans hdata)
    · exact .late hok hret (hkeep.trans hfirst) (.inl hdual)
  have hdual := Bool.eq_false_iff.mpr hdual
  simp only [pmRuntimePut, exec_modify] at hput
  by_cases hirq : dt.irq.1 = 0
  · obtain ⟨-, rfl⟩ := irqSetup_unwired hirq hsetup
    refine .bare hok rfl hdual hirq ?_ ⟨clk, ?_⟩
    · rw [hput, ← hlinks]
      rfl
    · rw [hput, ← haccount]
      rfl
  · rw [not_not.mp hset] at hsetup
    obtain ⟨hchained, hhandler⟩ := chained_irqSetup hirq hsetup
    rw [hput]
    exact .wired hok rfl hdual hirq hchained hhandler

theorem probeRegister_end (hk : (results .clkPrepareEnable).status ≤ 0)
    (hdata : s.mem.drvdata = some .first)
    (h : Exec (withMemory (gpioCoreWith results)) (probeRegister dt) s ret t) :
    ProbeEnd dt (RegistersClocked s.mem.account.clk results) s ret t := by
  rw [probeRegister] at h
  obtain ⟨status, u, hclk, h⟩ := (exec_bind_iff _ _ _).mp h
  obtain ⟨hstatus, haccount⟩ := account_clkPrepareEnable hclk
  have hlinks := (links_clkPrepareEnable .first).exec hclk
  obtain ⟨hneg, h⟩ | ⟨hpos, h⟩ := (exec_ite _ _ _ _).mp h
  · -- the clock cannot be enabled
    obtain ⟨rfl, rfl⟩ := (exec_pure _ _).mp h
    rw [if_neg (by omega)] at haccount
    refine .early (fun hok => ?_) (by omega) hlinks
      ⟨s.mem.pmEnabled, .inr rfl, s.mem.pmActive, s.mem.drvdata, s.mem.account.clk, haccount⟩
    split at hstatus
    · rename_i hsome
      have hzero := hok.clk hsome
      omega
    · omega
  have hzero : status = 0 := by
    split at hstatus <;> omega
  rw [if_pos hzero] at haccount
  obtain ⟨_, v, hpm, h⟩ := (exec_bind_iff _ _ _).mp h
  obtain ⟨status', w, hadd, h⟩ := (exec_bind_iff _ _ _).mp h
  simp only [pmRuntimeEnable, exec_modify] at hpm
  obtain ⟨hiff, hadded⟩ := account_gpiochipAdd hadd
  have hlinks' : w.mem.links = s.mem.links := by
    rw [(links_gpiochipAdd .first).exec hadd, hpm, ← hlinks]
    rfl
  have hv : v.mem.account = { s.mem.account.clocked 1 with pmEnabled := true, pmActive := true } := by
    rw [hpm, ← haccount]
    rfl
  obtain ⟨hne, herr⟩ | ⟨hok, h⟩ := (exec_ite _ _ _ _).mp h
  · -- the first chip is not registered
    obtain ⟨rfl, herr'⟩ := account_errUnprepareClk herr
    rw [if_neg hne, hv] at hadded
    refine .early (fun hok => hne (hiff.mpr ⟨hok.ioremap, hok.gpiochipAdd⟩)) hne ?_
      ⟨false, .inl rfl, true, s.mem.drvdata, s.mem.account.clk, ?_⟩
    · rw [(links_errUnprepareClk .first _).exec herr, hlinks']
    · have hback := Account.clocked_back { s.mem.account with pmEnabled := true, pmActive := true } 1
      rw [herr', hadded]
      exact congrArg (fun a : Account => { a with pmEnabled := false }) hback
  have hok := not_not.mp hok
  have hanswers : RegistersClocked s.mem.account.clk results := by
    obtain ⟨hmap, hadd⟩ := hiff.mp hok
    refine ⟨fun hsome => ?_, hmap, hadd⟩
    rw [if_pos hsome] at hstatus
    rw [← hstatus, hzero]
  rw [if_pos hok, hv] at hadded
  have hregistered : w.mem.account =
      { ({ s.mem.account with clk := s.mem.account.clk }.clocked 1).register .first true with
        drvdata := some .first
        pmEnabled := true
        pmActive := true } := by
    have hdrvdata : s.mem.account.drvdata = some .first := hdata
    rw [hadded, ← hdrvdata]
    rfl
  exact registered_end hanswers hlinks' hregistered h

/-- The end of the probe from a later state is its end from the start, where only the
structure and the data of the device have been set. -/
theorem ProbeEnd.from_start {ok ok' : Prop} (h : ProbeEnd dt ok u ret t) (hok : ok ↔ ok')
    (hlinks : u.mem.links = s.mem.links) {data : Option Channel} {clk : Bool}
    (haccount : u.mem.account = { s.mem.account with drvdata := data, clk := clk }) :
    ProbeEnd dt ok' s ret t := by
  cases h with
  | early hnot hret hl ha =>
    obtain ⟨b, hb, active, data, clk, ha⟩ := ha
    have hpm : u.mem.pmEnabled = s.mem.pmEnabled := congrArg Account.pmEnabled haccount
    rw [hpm] at hb
    rw [haccount] at ha
    exact .early (mt hok.mpr hnot) hret (hl.trans hlinks) ⟨b, hb, active, data, clk, ha⟩
  | late h' hret hregistered hmore => exact .late (hok.mp h') hret hregistered hmore
  | dual h' hret hdual hregistered hdata => exact .dual (hok.mp h') hret hdual hregistered hdata
  | wired h' hret hdual hirq hchained hdata =>
    exact .wired (hok.mp h') hret hdual hirq hchained hdata
  | bare h' hret hdual hirq hl ha =>
    obtain ⟨clk, ha⟩ := ha
    rw [haccount] at ha
    exact .bare (hok.mp h') hret hdual hirq (hl.trans hlinks) ⟨clk, ha⟩

theorem probe_end (hk : (results .clkPrepareEnable).status ≤ 0)
    (h : Exec (withMemory (gpioCoreWith results)) (xgpioOfProbe dt) s ret t) :
    ProbeEnd dt (RegistersFirst results) s ret t := by
  simp only [xgpioOfProbe, exec_bind_iff, exec_ite, exec_modify, exec_pure] at h
  obtain ⟨_, u, halloc, ⟨hfail, rfl, rfl⟩ | ⟨hsome, _, _, rfl, _, _, rfl, clk, v, hclk, h⟩⟩ := h
  · obtain ⟨rfl, rfl⟩ := exec_kzalloc halloc
    refine .early (fun hok => ?_) (by decide) rfl
      ⟨t.mem.pmEnabled, .inr rfl, t.mem.pmActive, t.mem.drvdata, t.mem.account.clk, rfl⟩
    exact absurd (hok.kzalloc.symm.trans hfail) (by decide)
  obtain ⟨rfl, rfl⟩ := exec_kzalloc halloc
  obtain ⟨hanswer, rfl⟩ := exec_clkGet hclk
  have hsome := (Bool.not_eq_false _).mp hsome
  cases herror : (results .clkGet).clkError with
  | none =>
    rw [herror] at hanswer
    subst hanswer
    simp only [exec_bind_iff, exec_modify] at h
    obtain ⟨_, _, rfl, h⟩ := h
    refine (probeRegister_end hk rfl h).from_start ?_ rfl rfl
    constructor
    · intro hok
      exact ⟨hsome, by rw [herror]; exact hok.clk rfl, hok.ioremap, hok.gpiochipAdd⟩
    · intro hok
      have hclk := hok.clk
      rw [herror] at hclk
      exact ⟨fun _ => hclk, hok.ioremap, hok.gpiochipAdd⟩
  | some e =>
    rw [herror] at hanswer
    subst hanswer
    simp only [exec_bind_iff, exec_modify, exec_ite, exec_pure] at h
    obtain ⟨hother, rfl, rfl⟩ | ⟨hnone, _, _, rfl, h⟩ := h
    · refine .early (fun hok => ?_) (by omega) rfl
        ⟨u.mem.pmEnabled, .inr rfl, u.mem.pmActive, some .first, false, rfl⟩
      have hclk := hok.clk
      rw [herror] at hclk
      exact hclk.elim hother.1 hother.2
    · refine (probeRegister_end hk rfl h).from_start ?_ rfl rfl
      constructor
      · intro hok
        refine ⟨hsome, ?_, hok.ioremap, hok.gpiochipAdd⟩
        rw [herror]
        by_cases hfirst : -(e : ℤ) - 1 = -enoent
        · exact .inl hfirst
        · exact .inr (not_not.mp fun hsecond => hnone ⟨hfirst, hsecond⟩)
      · intro hok
        exact ⟨fun hclk => absurd hclk Bool.false_ne_true, hok.ioremap, hok.gpiochipAdd⟩

/-! Between the probe and the removal. -/

/-- What requests, frees and suspends leave alone. -/
def GpioMem.tenure (d : GpioMem) : Links × (Channel → Bool) × Option Channel :=
  (d.links, d.registered, d.drvdata)

theorem tenure_powerStep {p q : PowerState} {label : PowerLabel} (h : PowerStep p label q) :
    q.sys.mem.tenure = p.sys.mem.tenure := by
  have hclkDisable : ∀ c, Preserves GpioMem.tenure (clkDisable c) := fun c =>
    .bind (.bind .get fun _ => .pure _) fun _ => .onlyIf (.modify fun _ => rfl)
  have hclkEnable : ∀ c, Preserves GpioMem.tenure (clkEnable c) := fun c =>
    .bind (.bind .get fun _ => .pure _) fun _ => .ite (.pure _) <| .bind (.port _) fun _ =>
      .bind (.onlyIf (.modify fun _ => rfl)) fun _ => .pure _
  cases label with
  | request c pin =>
    obtain ⟨ret, hrun, -, -⟩ := h
    have hrequest : Preserves GpioMem.tenure (xgpioRequest c pin) :=
      .bind (.bind (.modify fun _ => rfl) fun _ => .bind .get fun _ => .ite (.pure _) <|
        .bind (.bind .get fun _ => hclkEnable _) fun _ =>
          .bind (.onlyIf (.modify fun _ => rfl)) fun _ => .pure _) fun _ => .pure _
    exact hrequest.exec hrun
  | free c pin =>
    obtain ⟨-, hrun, -, -⟩ := h
    have hfree : Preserves GpioMem.tenure (xgpioFree c pin) := .modify fun _ => rfl
    exact hfree.exec hrun
  | suspend =>
    obtain ⟨-, -, ⟨u, hrun, hsys⟩, -, -⟩ := h
    have hsuspend : Preserves GpioMem.tenure xgpioRuntimeSuspend :=
      .bind .get fun _ => .bind (hclkDisable _) fun _ => .pure _
    rw [hsys, ← hsuspend.exec hrun]
    rfl

theorem tenure_run {l : List (PowerLabel × PowerState)} (h : Run PowerStep ⟨u, [], 0⟩ l) :
    (finish ⟨u, [], 0⟩ l).sys.mem.tenure = u.mem.tenure := by
  have hstep : ∀ p i q, p.sys.mem.tenure = u.mem.tenure → PowerStep p i q →
      q.sys.mem.tenure = u.mem.tenure := fun p i q hp hpq => (tenure_powerStep hpq).trans hp
  exact h.invariant hstep rfl

/-- The clock of a bound device is prepared once more than before the probe, and enabled once
more while the device is active. -/
structure ClockHeld (s : Sys GpioRegs) (d : GpioMem) : Prop where
  drvdata : d.drvdata = some .first
  pmEnabled : d.pmEnabled = true
  prepared : d.clkPrepared = if d.account.clk = true then s.mem.clkPrepared + 1
    else s.mem.clkPrepared
  enabled : d.clkEnabled = if d.account.clk = true ∧ d.pmActive = true then s.mem.clkEnabled + 1
    else s.mem.clkEnabled

namespace ClockHeld

variable {d : GpioMem}

theorem resumed (h : ClockHeld s d) (hidle : d.pmActive = false) :
    ClockHeld s ((if d.account.clk = true then d.enabledBy 1 else d).withActive true) := by
  have henabled := h.enabled
  rw [hidle] at henabled
  split
  · rename_i hclk
    refine ⟨h.drvdata, h.pmEnabled, h.prepared, ?_⟩
    rw [if_neg (by simp)] at henabled
    change d.clkEnabled + 1 = if d.account.clk = true ∧ true = true then _ else _
    rw [if_pos ⟨hclk, rfl⟩, henabled]
  · rename_i hclk
    refine ⟨h.drvdata, h.pmEnabled, h.prepared, ?_⟩
    rw [if_neg (by simp)] at henabled
    change d.clkEnabled = if d.account.clk = true ∧ true = true then _ else _
    rw [if_neg (fun hboth => hclk hboth.1), henabled]

theorem suspended (h : ClockHeld s d) (hactive : d.pmActive = true) :
    ClockHeld s (if d.account.clk = true then d.enabledBy (-1) else d).suspended := by
  have henabled := h.enabled
  split
  · rename_i hclk
    refine ⟨h.drvdata, h.pmEnabled, h.prepared, ?_⟩
    rw [if_pos ⟨hclk, hactive⟩] at henabled
    change d.clkEnabled + -1 = if d.account.clk = true ∧ false = true then _ else _
    rw [if_neg (by simp), henabled]
    exact Int.add_neg_cancel_right _ _
  · rename_i hclk
    refine ⟨h.drvdata, h.pmEnabled, h.prepared, ?_⟩
    rw [if_neg (fun hboth => hclk hboth.1)] at henabled
    change d.clkEnabled = if d.account.clk = true ∧ false = true then _ else _
    rw [if_neg (by simp), henabled]

theorem referenced (h : ClockHeld s d) : ClockHeld s d.referenced :=
  ⟨h.drvdata, h.pmEnabled, h.prepared, h.enabled⟩

end ClockHeld

theorem exec_clkEnable (h : Exec (withMemory gpioCore) (clkEnable .first) u ret v) :
    v.mem = (if ret = 0 then (if u.mem.account.clk = true then u.mem.enabledBy 1 else u.mem)
      else u.mem) := by
  simp only [clkEnable, exec_bind_iff, exec_instanceOf, exec_ite, exec_onlyIf_modify,
    exec_pure] at h
  obtain ⟨_, w, ⟨rfl, rfl⟩, ⟨hclk, rfl, rfl⟩ | ⟨hclk, status, x, hport, _, _, rfl, rfl, rfl⟩⟩ := h
  · have hnone : ¬v.mem.account.clk = true := Bool.eq_false_iff.mp hclk
    rw [if_pos rfl, if_neg hnone]
  · have hkeep := (Preserves.port (f := fun d : GpioMem => d) _).exec hport
    have hsome : w.mem.account.clk = true := (Bool.not_eq_false _).mp hclk
    rw [Config.withMem_mem, hkeep, if_pos hsome]

theorem exec_clkDisable {dev : Machine Port Port.Res GpioRegs} (x : Unit) :
    Exec (withMemory dev) (clkDisable .first) u x v ↔ v = u.withMem
      (if u.mem.account.clk = true then u.mem.enabledBy (-1) else u.mem) := by
  simp only [clkDisable, exec_bind_iff, exec_instanceOf, exec_onlyIf_modify]
  constructor
  · rintro ⟨_, _, ⟨rfl, rfl⟩, rfl⟩
    rfl
  · rintro rfl
    exact ⟨_, _, ⟨rfl, rfl⟩, rfl⟩

theorem clockHeld_getSync (hu : ClockHeld s u.mem)
    (h : Exec (withMemory gpioCore) pmRuntimeGetSync u ret v) : ClockHeld s v.mem := by
  simp only [pmRuntimeGetSync, xgpioRuntimeResume, exec_bind_iff, exec_modify, exec_get, exec_ite,
    exec_onlyIf_modify, exec_pure] at h
  obtain ⟨_, w, rfl, _, x, ⟨rfl, rfl⟩, ⟨-, -, rfl⟩ | ⟨hidle, r, y, ⟨_, z, ⟨rfl, rfl⟩, hresume⟩, _, _,
    rfl, rfl, rfl⟩⟩ := h
  · exact hu.referenced
  have hdata : u.mem.drvdata.getD .first = .first := by rw [hu.drvdata]; rfl
  rw [Config.withMem_mem, GpioMem.referenced_drvdata, hdata] at hresume
  have hmem := exec_clkEnable hresume
  by_cases hzero : ret = 0
  · rw [if_pos hzero] at hmem
    rw [Config.withMem_mem, if_pos hzero, hmem]
    exact hu.referenced.resumed (Bool.eq_false_iff.mpr hidle)
  · rw [if_neg hzero] at hmem
    rw [Config.withMem_mem, if_neg hzero, hmem]
    exact hu.referenced

theorem clockHeld_powerStep {p q : PowerState} {label : PowerLabel}
    (hp : ClockHeld s p.sys.mem) (h : PowerStep p label q) : ClockHeld s q.sys.mem := by
  cases label with
  | request c pin =>
    obtain ⟨ret, hrun, -, -⟩ := h
    simp only [xgpioRequest, exec_bind_iff, exec_pure] at hrun
    obtain ⟨_, _, hget, -, rfl⟩ := hrun
    exact clockHeld_getSync hp hget
  | free c pin =>
    obtain ⟨-, hrun, -, -⟩ := h
    rw [xgpioFree, pmRuntimePut, exec_modify] at hrun
    rw [hrun]
    exact ⟨hp.drvdata, hp.pmEnabled, hp.prepared, hp.enabled⟩
  | suspend =>
    obtain ⟨-, hactive, ⟨u, hrun, hsys⟩, -, -⟩ := h
    have hdata : p.sys.mem.drvdata.getD .first = .first := by rw [hp.drvdata]; rfl
    rw [xgpioRuntimeSuspend, exec_get_bind, hdata] at hrun
    simp only [exec_bind_iff, exec_clkDisable, exec_pure] at hrun
    obtain ⟨_, _, rfl, -, rfl⟩ := hrun
    rw [hsys]
    exact hp.suspended hactive

theorem clockHeld_run {l : List (PowerLabel × PowerState)} (hu : ClockHeld s u.mem)
    (h : Run PowerStep ⟨u, [], 0⟩ l) : ClockHeld s (finish ⟨u, [], 0⟩ l).sys.mem := by
  have hstep : ∀ p i q, ClockHeld s p.sys.mem → PowerStep p i q → ClockHeld s q.sys.mem :=
    fun p i q hp hpq => clockHeld_powerStep hp hpq
  exact h.invariant hstep hu

/-- A probe of a device with neither a second channel nor an interrupt holds the clock. -/
theorem clockHeld_of_account {clk : Bool}
    (haccount : t.mem.account = { ({ s.mem.account with clk := clk }.clocked 1).register
        .first true with
      drvdata := some .first
      pmEnabled := true
      pmActive := true }) : ClockHeld s t.mem := by
  have hclk : t.mem.account.clk = clk := congrArg Account.clk haccount
  have hactive : t.mem.pmActive = true := congrArg Account.pmActive haccount
  have hprepared : t.mem.clkPrepared = if clk = true then s.mem.clkPrepared + 1
      else s.mem.clkPrepared := congrArg Account.clkPrepared haccount
  have henabled : t.mem.clkEnabled = if clk = true then s.mem.clkEnabled + 1
      else s.mem.clkEnabled := congrArg Account.clkEnabled haccount
  refine ⟨congrArg Account.drvdata haccount, congrArg Account.pmEnabled haccount, ?_, ?_⟩
  · rw [hclk, hprepared]
  · rw [hclk, hactive, henabled]
    simp only [and_true]

/-! The removal. -/

theorem exec_clkUnprepare {dev : Machine Port Port.Res GpioRegs} (x : Unit) :
    Exec (withMemory dev) (clkUnprepare .first) u x v ↔ v = u.withMem
      (if u.mem.account.clk = true then { u.mem with clkPrepared := u.mem.clkPrepared - 1 }
        else u.mem) := by
  simp only [clkUnprepare, exec_bind_iff, exec_instanceOf, exec_onlyIf_modify]
  constructor
  · rintro ⟨_, _, ⟨rfl, rfl⟩, rfl⟩
    rfl
  · rintro rfl
    exact ⟨_, _, ⟨rfl, rfl⟩, rfl⟩

theorem links_remove : Preserves GpioMem.links xgpioRemove := by
  have hclkDisable : ∀ c, Preserves GpioMem.links (clkDisable c) := fun c =>
    .bind (.bind .get fun _ => .pure _) fun _ => .onlyIf (.modify fun _ => rfl)
  have hclkUnprepare : ∀ c, Preserves GpioMem.links (clkUnprepare c) := fun c =>
    .bind (.bind .get fun _ => .pure _) fun _ => .onlyIf (.modify fun _ => rfl)
  exact .bind .get fun _ => .bind (.modify fun _ => rfl) fun _ => .bind .get fun _ =>
    .bind (.onlyIf (hclkDisable _)) fun _ => .bind (hclkUnprepare _) fun _ =>
    .bind (.modify fun _ => rfl) fun _ => .pure _

theorem exec_onlyIf_clkDisable {dev : Machine Port Port.Res GpioRegs} (p : Prop) [Decidable p]
    (x : Unit) : Exec (withMemory dev) (onlyIf p (clkDisable .first)) u x v ↔ v = u.withMem
      (if p ∧ u.mem.account.clk = true then u.mem.enabledBy (-1) else u.mem) := by
  by_cases hp : p
  · rw [onlyIf, if_pos hp, exec_clkDisable]
    simp only [hp, true_and]
  · rw [onlyIf, if_neg hp, exec_pure, if_neg fun hboth => hp hboth.1]
    exact and_iff_right rfl

/-- The chip that is unregistered is that of the first channel. -/
theorem account_remove (hdata : u.mem.drvdata = some .first)
    (h : Exec (withMemory gpioCore) xgpioRemove u ret v) :
    v.mem.account = { u.mem.account.register .first false with
      pmEnabled := false
      clkPrepared := if u.mem.account.clk = true then u.mem.clkPrepared - 1 else u.mem.clkPrepared
      clkEnabled := if ¬(u.mem.pmActive = false ∧ u.mem.pmEnabled = true) ∧
        u.mem.account.clk = true then u.mem.clkEnabled - 1 else u.mem.clkEnabled } := by
  rw [xgpioRemove, exec_get_bind, hdata] at h
  obtain ⟨_, w, hremove, h⟩ := (exec_bind_iff _ _ _).mp h
  rw [exec_get_bind] at h
  obtain ⟨_, x, hdisable, h⟩ := (exec_bind_iff _ _ _).mp h
  have hdisable := (exec_onlyIf_clkDisable _ _).mp hdisable
  obtain ⟨_, y, hunprepare, h⟩ := (exec_bind_iff _ _ _).mp h
  have hunprepare := (exec_clkUnprepare _).mp hunprepare
  simp only [ofMmGpiochipRemove, exec_modify] at hremove
  simp only [pmRuntimeDisable, exec_bind_iff, exec_modify, exec_pure] at h
  obtain ⟨_, _, rfl, -, rfl⟩ := h
  have hw : w.mem.account = u.mem.account.register .first false := by
    rw [hremove]
    rfl
  have hclkw : w.mem.account.clk = u.mem.account.clk := by
    rw [hw]
    rfl
  have hx : x.mem.account = { w.mem.account with
      clkEnabled := if ¬(w.mem.pmActive = false ∧ w.mem.pmEnabled = true) ∧
        w.mem.account.clk = true then w.mem.clkEnabled - 1 else w.mem.clkEnabled } := by
    rw [hdisable, Config.withMem_mem]
    split <;> rfl
  have hclkx : x.mem.account.clk = u.mem.account.clk := (congrArg Account.clk hx).trans hclkw
  have hy : y.mem.account = { x.mem.account with
      clkPrepared := if x.mem.account.clk = true then x.mem.clkPrepared - 1
        else x.mem.clkPrepared } := by
    rw [hunprepare, Config.withMem_mem]
    split <;> rfl
  have hprepared : x.mem.clkPrepared = u.mem.clkPrepared :=
    (congrArg Account.clkPrepared hx).trans (congrArg Account.clkPrepared hw)
  have hactive : w.mem.pmActive = u.mem.pmActive := congrArg Account.pmActive hw
  have hpm : w.mem.pmEnabled = u.mem.pmEnabled := congrArg Account.pmEnabled hw
  have henabled : w.mem.clkEnabled = u.mem.clkEnabled := congrArg Account.clkEnabled hw
  change { y.mem.account with pmEnabled := false } = _
  rw [hy, hclkx, hprepared, hx, hclkw, hactive, hpm, henabled, hw]

/-- What the removal leaves is what was there before the probe, but for the links. -/
theorem clean_remove (hs : Unbound s) (hu : ClockHeld s u.mem) (hlinks : u.mem.links = s.mem.links)
    (hsecond : u.mem.registered .second = false)
    (h : Exec (withMemory gpioCore) xgpioRemove u ret v) : LeftClean s v := by
  have haccount := account_remove hu.drvdata h
  have hlinks' : v.mem.links = s.mem.links := (links_remove.exec h).trans hlinks
  have hpm := hu.pmEnabled
  constructor
  · intro c
    have hregistered : v.mem.registered = fun c' => if c' = .first then false
        else u.mem.registered c' := congrArg Account.registered haccount
    rw [hregistered]
    cases c with
    | first => rfl
    | second => exact hsecond
  · have hdata : v.mem.chipData = s.mem.chipData := congrArg Links.chipData hlinks'
    rw [hdata]
    exact hs.descriptors
  · have hchained : v.mem.chainedHandler = s.mem.chainedHandler :=
      congrArg Links.chainedHandler hlinks'
    have hdata : v.mem.handlerData = s.mem.handlerData := congrArg Links.handlerData hlinks'
    rw [hchained, hdata]
    exact hs.handlers
  · have hprepared : v.mem.clkPrepared = if u.mem.account.clk = true then u.mem.clkPrepared - 1
        else u.mem.clkPrepared := congrArg Account.clkPrepared haccount
    have hheld := hu.prepared
    split at hheld <;> simp_all
  · have henabled : v.mem.clkEnabled = if ¬(u.mem.pmActive = false ∧ u.mem.pmEnabled = true) ∧
        u.mem.account.clk = true then u.mem.clkEnabled - 1 else u.mem.clkEnabled :=
      congrArg Account.clkEnabled haccount
    rw [henabled, hu.enabled]
    by_cases hclk : u.mem.account.clk = true <;> cases hactive : u.mem.pmActive <;>
      simp [hclk, hpm]
  · have hdisabled : v.mem.pmEnabled = false := congrArg Account.pmEnabled haccount
    rw [hdisabled, hs.pmEnabled]

/-- A probe that fails, or one that succeeds with a removal some time after it. -/
inductive LifeCycle (dt : DeviceTree) (results : Port → Kernel) (s t : Sys GpioRegs) : Prop
  | failed (ret : ℤ) (hret : ret ≠ 0)
      (probe : Exec (withMemory (gpioCoreWith results)) (xgpioOfProbe dt) s ret t)
  | removed (u : Sys GpioRegs) (l : List (PowerLabel × PowerState)) (ret : ℤ)
      (probe : Exec (withMemory (gpioCoreWith results)) (xgpioOfProbe dt) s 0 u)
      (use : Run PowerStep ⟨u, [], 0⟩ l)
      (remove : Exec (withMemory gpioCore) xgpioRemove (finish ⟨u, [], 0⟩ l).sys ret t)

theorem clean_early (hs : Unbound s) (hlinks : t.mem.links = s.mem.links) {b active clk : Bool}
    {data : Option Channel} (hb : b = false ∨ b = s.mem.pmEnabled)
    (haccount : t.mem.account = { s.mem.account with
      pmEnabled := b
      pmActive := active
      drvdata := data
      clk := clk }) : LeftClean s t := by
  have hregistered : t.mem.registered = s.mem.registered := congrArg Account.registered haccount
  have hdata : t.mem.chipData = s.mem.chipData := congrArg Links.chipData hlinks
  have hchained : t.mem.chainedHandler = s.mem.chainedHandler := congrArg Links.chainedHandler hlinks
  have hhandler : t.mem.handlerData = s.mem.handlerData := congrArg Links.handlerData hlinks
  have hpm : t.mem.pmEnabled = b := congrArg Account.pmEnabled haccount
  constructor
  · rw [hregistered]
    exact hs.registered
  · rw [hdata]
    exact hs.descriptors
  · rw [hchained, hhandler]
    exact hs.handlers
  · exact congrArg Account.clkPrepared haccount
  · exact congrArg Account.clkEnabled haccount
  · rw [hpm, hs.pmEnabled]
    exact hb.elim id fun h => h.trans hs.pmEnabled

theorem not_clean_of_registered {c : Channel} (hregistered : t.mem.registered c = true) :
    ¬LeftClean s t := by
  intro hclean
  have hnot := hclean.registered c
  rw [hregistered] at hnot
  cases hnot

/-- The removal takes back the chip of the first channel, not that of the second. -/
theorem not_clean_of_second (hdata : u.mem.drvdata = some .first)
    (hregistered : u.mem.registered .second = true)
    (h : Exec (withMemory gpioCore) xgpioRemove u ret v) : ¬LeftClean s v := by
  have hv : v.mem.registered = fun c' => if c' = .first then false else u.mem.registered c' :=
    congrArg Account.registered (account_remove hdata h)
  have hsecond : v.mem.registered .second = true := by
    rw [hv]
    exact hregistered
  exact not_clean_of_registered hsecond

/-- The removal leaves a chained handler with the channel it refers to. -/
theorem not_clean_of_chained {parent : ℕ} (hchained : u.mem.chainedHandler parent = true)
    (hdata : u.mem.handlerData parent = some .first)
    (h : Exec (withMemory gpioCore) xgpioRemove u ret v) : ¬LeftClean s v := by
  have hlinks := links_remove.exec h
  have hchained' : v.mem.chainedHandler = u.mem.chainedHandler :=
    congrArg Links.chainedHandler hlinks
  have hhandler' : v.mem.handlerData = u.mem.handlerData := congrArg Links.handlerData hlinks
  intro hclean
  have hnone := hclean.handlers parent (by rw [hchained', hchained])
  rw [hhandler', hdata] at hnone
  cases hnone

/-- A life cycle whose probe fails. -/
theorem clean_failed_iff (hk : (results .clkPrepareEnable).status ≤ 0) (hs : Unbound s)
    (hret : ret ≠ 0) (h : Exec (withMemory (gpioCoreWith results)) (xgpioOfProbe dt) s ret t) :
    LeftClean s t ↔ (dt.dual = false ∧ dt.irq.1 = 0) ∨ ¬RegistersFirst results := by
  cases probe_end hk h with
  | early hok _ hlinks haccount =>
    obtain ⟨b, hb, active, data, clk, haccount⟩ := haccount
    exact iff_of_true (clean_early hs hlinks hb haccount) (.inr hok)
  | late hok _ hregistered hmore =>
    apply iff_of_false (not_clean_of_registered hregistered)
    rintro (hbare | hnot)
    · exact hmore.elim (fun hdual => absurd (hbare.1.symm.trans hdual) (by decide))
        fun hirq => hirq hbare.2
    · exact hnot hok
  | dual _ hzero => exact absurd hzero hret
  | wired _ hzero => exact absurd hzero hret
  | bare _ hzero => exact absurd hzero hret

/-- A life cycle whose probe succeeds and ends in a removal. -/
theorem clean_removed_iff {w : Sys GpioRegs} {l : List (PowerLabel × PowerState)}
    (hk : (results .clkPrepareEnable).status ≤ 0) (hs : Unbound s)
    (hprobe : Exec (withMemory (gpioCoreWith results)) (xgpioOfProbe dt) s 0 u)
    (huse : Run PowerStep ⟨u, [], 0⟩ l) (hw : (finish ⟨u, [], 0⟩ l).sys = w)
    (h : Exec (withMemory gpioCore) xgpioRemove w ret v) :
    LeftClean s v ↔ (dt.dual = false ∧ dt.irq.1 = 0) ∨ ¬RegistersFirst results := by
  have htenure : w.mem.tenure = u.mem.tenure := hw ▸ tenure_run huse
  obtain ⟨hlinks', hrest⟩ := Prod.mk.inj htenure
  obtain ⟨hregistered', hdata'⟩ := Prod.mk.inj hrest
  cases probe_end hk hprobe with
  | early _ hret => exact absurd rfl hret
  | late _ hret => exact absurd rfl hret
  | dual hok _ hdual hregistered hdata =>
    have hsecond : w.mem.registered .second = true := by
      rw [hregistered', hregistered]
    apply iff_of_false (not_clean_of_second (hdata'.trans hdata) hsecond h)
    rintro (hbare | hnot)
    · exact absurd (hbare.1.symm.trans hdual) (by decide)
    · exact hnot hok
  | wired hok _ hdual hirq hchained hdata =>
    have hchained' : w.mem.chainedHandler = u.mem.chainedHandler :=
      congrArg Links.chainedHandler hlinks'
    have hhandler' : w.mem.handlerData = u.mem.handlerData := congrArg Links.handlerData hlinks'
    rw [← hchained'] at hchained
    rw [← hhandler'] at hdata
    apply iff_of_false (not_clean_of_chained hchained hdata h)
    rintro (hbare | hnot)
    · exact hirq hbare.2
    · exact hnot hok
  | bare hok _ hdual hirq hlinks haccount =>
    obtain ⟨clk, haccount⟩ := haccount
    have hheld : ClockHeld s w.mem := hw ▸ clockHeld_run (clockHeld_of_account haccount) huse
    have hsecond : w.mem.registered .second = false := by
      rw [hregistered', ← hs.registered .second]
      exact congrFun (congrArg Account.registered haccount) .second
    exact iff_of_true (clean_remove hs hheld (hlinks'.trans hlinks) hsecond h)
      (.inl ⟨hdual, hirq⟩)

/-- A life cycle leaves nothing behind exactly if the device has one channel and no
interrupt, or the chip of its first channel is never registered. -/
theorem left_clean_iff (dt : DeviceTree) (results : Port → Kernel)
    (hk : (results .clkPrepareEnable).status ≤ 0) (s : Sys GpioRegs) (hs : Unbound s)
    (t : Sys GpioRegs) (h : LifeCycle dt results s t) :
    LeftClean s t ↔ (dt.dual = false ∧ dt.irq.1 = 0) ∨ ¬RegistersFirst results := by
  cases h with
  | failed ret hret hprobe => exact clean_failed_iff hk hs hret hprobe
  | removed u l ret hprobe huse hremove => exact clean_removed_iff hk hs hprobe huse rfl hremove

end LifeCycle

section Runs

/-- The state after a program, with kernel functions that answer as given. -/
def ranWith {α : Type} (results : Port → Kernel) (p : Xgpio α) (s : Sys GpioRegs) :
    Option (α × Sys GpioRegs) :=
  run (onDevice (fun d (_ : Unit) p => d.answer (results p) p) fun _ _ => ()) 2 p s

theorem exec_ranWith {results : Port → Kernel} {α : Type} {p : Xgpio α} {s t : Sys GpioRegs} {a : α}
    (h : ranWith results p s = some (a, t)) : Exec (withMemory (gpioCoreWith results)) p s a t :=
  (onDevice_refines _ _).exec _ ((watch_sound _ _).1 _ _ h)

theorem unbound_blank : Unbound blank :=
  ⟨fun _ => rfl, fun _ => rfl, fun _ h => absurd h Bool.false_ne_true, rfl⟩

/-- A device with one channel and no interrupt. -/
def bareTree : DeviceTree := { treeOf 0 with irq := (0, 0) }

def bareProbed : Sys GpioRegs :=
  ((ranWith (willing blank.dev) (xgpioOfProbe bareTree) blank).getD (0, blank)).2

def bareRemoved : Sys GpioRegs :=
  ((ranWith (willing blank.dev) xgpioRemove bareProbed).getD (0, bareProbed)).2

/-- The probe and the removal of this device leave nothing. -/
theorem left_clean_bare : LeftClean blank bareRemoved := by
  have hprobe : ranWith (willing blank.dev) (xgpioOfProbe bareTree) blank = some (0, bareProbed) :=
    rfl
  have hremove : ranWith (willing blank.dev) xgpioRemove bareProbed = some (0, bareRemoved) := rfl
  refine (left_clean_iff bareTree (willing blank.dev) (by decide) blank unbound_blank bareRemoved
    ?_).mpr (.inl ⟨by decide, rfl⟩)
  exact .removed bareProbed [] 0 (exec_ranWith hprobe) (.nil _) (exec_core (exec_ranWith hremove))

/-- There is no memory for the second channel. -/
def outOfMemory : Port → Kernel
  | .kzalloc .second => ⟨false, none, 0⟩
  | p => willing blank.dev p

def halfProbed : Sys GpioRegs :=
  ((ranWith outOfMemory (xgpioOfProbe (treeOf 1)) blank).getD (0, blank)).2

/-- The chip of the first channel is still registered when the probe returns. -/
theorem chip_left_behind : ¬∀ dt results, (results .clkPrepareEnable).status ≤ 0 → ∀ s, Unbound s →
    ∀ t, LifeCycle dt results s t → LeftClean s t := by
  intro h
  have hprobe : ranWith outOfMemory (xgpioOfProbe (treeOf 1)) blank = some (-12, halfProbed) := rfl
  have hclean := h (treeOf 1) outOfMemory (by decide) blank unbound_blank halfProbed
    (.failed (-12) (by decide) (exec_ranWith hprobe))
  exact absurd (hclean.registered .first) (by decide)

end Runs

end PynqPrio.Gpio
