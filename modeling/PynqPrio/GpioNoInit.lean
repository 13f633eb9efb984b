import PynqPrio.GpioPins
import PynqPrio.ProofOutlines

/-!
# Taking over the state of the hardware

With `xlnx,no-init` the probe is meant to leave the registers of the channels alone and to
take the shadow registers from them. The core keeps the history of the accesses, so that a
write of an equal value is seen too. `no_init` is read for the structure of the first
channel only, and `xgpio_save_regs` reads the registers of the first channel for both.
-/
namespace PynqPrio.Gpio
open Programs Programs.Driver Programs.Prog

/-- The registers with the accesses so far. -/
abbrev GpioHistory := GpioRegs × List Port

/-- The access writes `DATA` or `TRI` of a channel. -/
def Port.WritesPins : Port → Prop
  | .writereg addr _ => ∃ c : Channel, addr = c.offset + dataOffset ∨ addr = c.offset + triOffset
  | _ => False

def Port.IsKernel : Port → Prop
  | .readreg _ | .writereg .. => False
  | _ => True

theorem Port.IsKernel.not_writesPins {p : Port} (h : p.IsKernel) : ¬p.WritesPins := by
  cases p with
  | writereg => exact h.elim
  | _ => exact id

section Probe

structure Shadow where
  noInit : Bool
  offset : ℕ
  gpioState : BitVec 32
  gpioDir : BitVec 32

def XgpioInstance.shadow (chip : XgpioInstance) : Shadow :=
  ⟨chip.noInit, chip.offset, chip.gpioState, chip.gpioDir⟩

def GpioMem.shadows (d : GpioMem) (c : Channel) : Shadow := (d.chip c).shadow

theorem shadows_update_same (d : GpioMem) (c : Channel) {f : XgpioInstance → XgpioInstance}
    (hf : ∀ chip, (f chip).shadow = chip.shadow) : (d.update c f).shadows = d.shadows := by
  funext c'
  by_cases hcc : c' = c
  · subst hcc
    rw [GpioMem.shadows, GpioMem.update_self, hf]
    rfl
  · rw [GpioMem.shadows, GpioMem.update_of_ne _ _ hcc]
    rfl

/-- Only kernel functions have been called, and the shadow registers are as before. -/
structure Kept (s t : Sys GpioHistory) : Prop where
  shadows : t.mem.shadows = s.mem.shadows
  regs : t.dev.1 = s.dev.1
  history : ∃ ops, t.dev.2 = s.dev.2 ++ ops ∧ ∀ o ∈ ops, o.IsKernel

variable {dt : DeviceTree} {c : Channel} {s t u : Sys GpioHistory}

theorem Kept.trans (h : Kept s t) (h' : Kept t u) : Kept s u := by
  obtain ⟨ops, hops, hkernel⟩ := h.history
  obtain ⟨ops', hops', hkernel'⟩ := h'.history
  refine ⟨h'.shadows.trans h.shadows, h'.regs.trans h.regs, ops ++ ops', ?_, fun o ho => ?_⟩
  · rw [hops', hops, List.append_assoc]
  · exact (List.mem_append.mp ho).elim (hkernel o) (hkernel' o)

theorem Kept.history_le (h : Kept s t) : s.dev.2 <+: t.dev.2 := by
  obtain ⟨ops, hops, -⟩ := h.history
  exact ⟨ops, hops.symm⟩

theorem kept_of_kernel {α : Type} {q : Xgpio α} {a : α} (hq : UsesPorts Port.IsKernel q)
    (hshadows : Preserves GpioMem.shadows q)
    (h : Exec (withMemory gpioCore.logged) q s a t) : Kept s t := by
  have hdev := (hq.meets (H := anyAccess) (s := s) (I := fun e : GpioHistory => e.1 = s.dev.1 ∧
    ∃ ops, e.2 = s.dev.2 ++ ops ∧ ∀ o ∈ ops, o.IsKernel) ?_ ⟨rfl, [], by simp, by simp⟩).2 a t h
  · exact ⟨hshadows.exec h, hdev.1, hdev.2⟩
  · rintro p e x e' hp ⟨hregs, ops, hops, hkernel⟩ ⟨⟨k, hk⟩, hlog⟩
    refine ⟨trivial, ?_, ops ++ [p], ?_, fun o ho => ?_⟩
    · rw [← hregs]
      cases p with
      | readreg => exact hp.elim
      | writereg => exact hp.elim
      | _ => exact (Prod.mk.inj (Option.some.inj hk)).2.symm
    · rw [hlog, hops, List.append_assoc]
    · rcases List.mem_append.mp ho with ho | ho
      · exact hkernel o ho
      · rwa [List.mem_singleton.mp ho]

/-! The functions of the probe that only call the kernel. -/

theorem uses_instanceOf (c : Channel) : UsesPorts Port.IsKernel (instanceOf c) :=
  .bind .get fun _ => .pure _

theorem uses_modify (f : GpioMem → GpioMem) : UsesPorts Port.IsKernel (modify f : Xgpio Unit) :=
  .bind .get fun _ => .set _

theorem shadows_instanceOf (c : Channel) : Preserves GpioMem.shadows (instanceOf c) :=
  .bind .get fun _ => .pure _

theorem kept_clkPrepareEnable {x : ℤ}
    (h : Exec (withMemory gpioCore.logged) (clkPrepareEnable c) s x t) : Kept s t := by
  refine kept_of_kernel (q := clkPrepareEnable c) ?_ ?_ h
  · refine .bind (uses_instanceOf c) fun chip => .ite (.pure _) ?_
    refine .bind (.port trivial) fun status => .ite ?_ (.pure _)
    exact .bind (uses_modify _) fun _ => .pure _
  · refine .bind (shadows_instanceOf c) fun chip => .ite (.pure _) ?_
    refine .bind (.port _) fun status => .ite ?_ (.pure _)
    exact .bind (.modify fun _ => rfl) fun _ => .pure _

theorem kept_withMem {d : GpioMem} (hd : d.shadows = s.mem.shadows) : Kept s (s.withMem d) :=
  ⟨hd, rfl, [], by simp, by simp⟩

theorem kept_port {p : Port} (hp : p.IsKernel) {x : Port.Res p}
    (h : Exec (withMemory gpioCore.logged) (port (P := Port) p : Xgpio (Port.Res p)) s x t) :
    Kept s t :=
  kept_of_kernel (.port hp) (.port p) h

theorem kept_irqSetup {x : ℤ} (h : Exec (withMemory gpioCore.logged) (xgpioIrqSetup dt c) s x t) :
    Kept s t := by
  refine kept_of_kernel (q := xgpioIrqSetup dt c) ?_ ?_ h
  · refine .ite (.pure _) (.bind (uses_instanceOf c) fun chip => .bind (.port trivial) fun base =>
      .bind (uses_modify _) fun _ => .ite (.pure _) (.bind (uses_modify _) fun _ =>
      .bind (uses_instanceOf c) fun chip => .bind ?_ fun _ => .bind (uses_modify _) fun _ =>
      .bind (uses_modify _) fun _ => .pure _))
    induction List.range chip.ngpio with
    | nil => exact .pure _
    | cons i l ih => exact .bind (uses_modify _) fun _ => ih
  · refine .ite (.pure _) (.bind (shadows_instanceOf c) fun chip => .bind (.port _) fun base =>
      .bind (.modify fun d => shadows_update_same d c fun _ => rfl) fun _ => .ite (.pure _)
      (.bind (.modify fun d => shadows_update_same d c fun _ => rfl) fun _ =>
      .bind (shadows_instanceOf c) fun chip => .bind (.forM _ fun _ => .modify fun _ => rfl) fun _ =>
      .bind (.modify fun _ => rfl) fun _ => .bind (.modify fun _ => rfl) fun _ => .pure _))

/-- With `no_init` the registers of the first channel are read for every channel. -/
def readBack (c : Channel) (s : Sys GpioHistory) : Sys GpioHistory where
  mem := s.mem.update c fun chip =>
    (chip.withState (s.dev.1.read dataOffset)).withDir (s.dev.1.read triOffset)
  trace := s.trace
  dev := (s.dev.1, s.dev.2 ++ [.readreg dataOffset, .readreg triOffset])

theorem exec_logged_readreg {addr : ℕ} {x : BitVec 32}
    (h : Exec (withMemory gpioCore.logged) (xgpioReadreg addr) s x t) :
    x = s.dev.1.read addr ∧ t = s.withDev (s.dev.1, s.dev.2 ++ [.readreg addr]) := by
  obtain ⟨⟨e, l⟩, ⟨⟨_, hk⟩, rfl⟩, rfl⟩ := (exec_port (R := Port.Res) (.readreg addr) x).mp h
  obtain ⟨rfl, rfl⟩ := Prod.mk.inj (Option.some.inj hk)
  exact ⟨rfl, rfl⟩

theorem exec_saveRegs_noInit (hinit : (s.mem.chip c).noInit = true)
    (h : Exec (withMemory gpioCore.logged) (xgpioSaveRegs c) s () t) : t = readBack c s := by
  simp only [xgpioSaveRegs, instanceOf, exec_bind_iff, exec_ite, exec_get, exec_pure,
    exec_modify] at h
  obtain ⟨_, _, ⟨_, _, ⟨rfl, rfl⟩, rfl, rfl⟩, ⟨-, h⟩ | ⟨hnot, -⟩⟩ := h
  · obtain ⟨state, _, hstate, _, _, rfl, dir, _, hdir, rfl⟩ := h
    obtain ⟨rfl, rfl⟩ := exec_logged_readreg hstate
    obtain ⟨rfl, rfl⟩ := exec_logged_readreg hdir
    simp only [readBack, Config.withMem, Config.withDev, List.append_assoc, List.cons_append,
      List.nil_append]
    congr 1
    simp only [GpioMem.update]
    congr 1
    funext c'
    by_cases hcc : c' = c <;> simp [hcc]
  · exact absurd hinit hnot

/-- Without it, the defaults are written. -/
theorem history_saveRegs (hinit : (s.mem.chip c).noInit = false)
    (h : Exec (withMemory gpioCore.logged) (xgpioSaveRegs c) s () t) :
    s.dev.2 ++ [.writereg ((s.mem.chip c).offset + dataOffset) (s.mem.chip c).gpioState] <+:
      t.dev.2 := by
  simp only [xgpioSaveRegs, instanceOf, exec_bind_iff, exec_ite, exec_get, exec_pure] at h
  obtain ⟨_, _, ⟨_, _, ⟨rfl, rfl⟩, rfl, rfl⟩, ⟨hnot, -⟩ | ⟨-, h⟩⟩ := h
  · exact absurd hnot (by simp [hinit])
  · obtain ⟨_, u, hdata, htri⟩ := h
    obtain ⟨e, ⟨-, hlog⟩, rfl⟩ := (exec_port (R := Port.Res) (.writereg _ _) _).mp hdata
    have hafter := exec_history htri
    rwa [Config.withDev_dev, hlog] at hafter

/-- An access that is logged is an access of the core. -/
theorem exec_unlogged {α : Type} {q : Xgpio α} {a : α}
    (h : Exec (withMemory gpioCore.logged) q s a t) :
    Exec (withMemory gpioCore) q (s.mapDev Prod.fst) a (t.mapDev Prod.fst) :=
  (withMemory_refines_view gpioCore.logged_refines).exec q h

/-- A chip that gets registered has its `save_regs` called once. -/
theorem exec_gpiochipAdd (h : Exec (withMemory gpioCore.logged) (ofMmGpiochipAdd c) s 0 t) :
    ∃ v w, Kept s v ∧ Exec (withMemory gpioCore.logged) (xgpioSaveRegs c) v () w ∧ Kept w t := by
  simp only [ofMmGpiochipAdd, exec_bind_iff, exec_ite, exec_modify, exec_pure] at h
  obtain ⟨_, v, hmap, ⟨hne, rfl, -⟩ | ⟨-, _, w, hsave, status, x, hadd, h⟩⟩ := h
  · exact absurd rfl hne
  · refine ⟨v, w, kept_port (p := .ioremap c) trivial hmap, hsave,
      (kept_port (p := .gpiochipAdd c) trivial hadd).trans ?_⟩
    obtain ⟨-, _, _, rfl, -, rfl⟩ | ⟨hne, rfl, -⟩ := h
    · exact kept_withMem rfl
    · exact absurd rfl hne

/-- The structure of the first channel is filled in, and only the kernel has been called. -/
structure Started (dt : DeviceTree) (s t : Sys GpioHistory) : Prop where
  shadow : t.mem.shadows .first = dt.firstChip.shadow
  regs : t.dev.1 = s.dev.1
  history : ∃ ops, t.dev.2 = s.dev.2 ++ ops ∧ ∀ o ∈ ops, o.IsKernel

theorem Started.kept (h : Started dt s t) (h' : Kept t u) : Started dt s u := by
  obtain ⟨ops, hops, hkernel⟩ := h.history
  obtain ⟨ops', hops', hkernel'⟩ := h'.history
  refine ⟨(congrFun h'.shadows .first).trans h.shadow, h'.regs.trans h.regs, ops ++ ops', ?_,
    fun o ho => (List.mem_append.mp ho).elim (hkernel o) (hkernel' o)⟩
  rw [hops', hops, List.append_assoc]

theorem Started.history_le (h : Started dt s t) : s.dev.2 <+: t.dev.2 := by
  obtain ⟨ops, hops, -⟩ := h.history
  exact ⟨ops, hops.symm⟩

/-- A successful probe: the first channel is registered, then the second if there is one. -/
theorem exec_probeRegister (hstarted : Started dt s t)
    (h : Exec (withMemory gpioCore.logged) (probeRegister dt) t 0 u) :
    ∃ v w x, Started dt s v ∧ Exec (withMemory gpioCore.logged) (xgpioSaveRegs .first) v () w ∧
      Kept w x ∧ ((dt.dual = true ∧ Exec (withMemory gpioCore.logged) (probeSecond dt) x 0 u) ∨
        (dt.dual = false ∧ Kept x u)) := by
  simp only [probeRegister, exec_bind_iff, exec_ite, exec_pure] at h
  obtain ⟨status, v, hclk, ⟨hneg, rfl, -⟩ | ⟨-, _, w, hpm, status', x, hadd, h⟩⟩ := h
  · exact absurd hneg (by decide)
  obtain ⟨hstatus, herr⟩ | ⟨hok, status'', y, hsetup, h⟩ := h
  · exact absurd (errUnprepareClk_status (exec_unlogged herr)).symm hstatus
  obtain ⟨hstatus, herr⟩ | ⟨-, h⟩ := h
  · exact absurd (errPmPut_status (exec_unlogged herr)).symm hstatus
  obtain rfl := not_not.mp hok
  simp only [pmRuntimeEnable, exec_modify] at hpm
  subst hpm
  obtain ⟨a, b, hbefore, hsave, hafter⟩ := exec_gpiochipAdd hadd
  have hclk' : Started dt s v := hstarted.kept (kept_clkPrepareEnable hclk)
  have hpm : Started dt s _ := hclk'.kept
    (kept_withMem (d := { v.mem with pmEnabled := true, pmActive := true }) rfl)
  refine ⟨a, b, y, hpm.kept hbefore, hsave, hafter.trans (kept_irqSetup hsetup), ?_⟩
  obtain ⟨hdual, hrun⟩ | ⟨hdual, _, _, hput, -, rfl⟩ := h
  · exact .inl ⟨hdual, hrun⟩
  · simp only [pmRuntimePut, exec_modify] at hput
    subst hput
    exact .inr ⟨Bool.eq_false_iff.mpr hdual, kept_withMem rfl⟩

theorem exec_probe (h : Exec (withMemory gpioCore.logged) (xgpioOfProbe dt) s 0 u) :
    ∃ v w x, Started dt s v ∧ Exec (withMemory gpioCore.logged) (xgpioSaveRegs .first) v () w ∧
      Kept w x ∧ ((dt.dual = true ∧ Exec (withMemory gpioCore.logged) (probeSecond dt) x 0 u) ∨
        (dt.dual = false ∧ Kept x u)) := by
  simp only [xgpioOfProbe, exec_bind_iff, exec_ite, exec_modify, exec_pure] at h
  obtain ⟨_, t, halloc, ⟨_, hfail, -⟩ | ⟨-, _, _, rfl, _, _, rfl, clk, v, hclk, h⟩⟩ := h
  · exact absurd hfail (by decide)
  have hstarted : Started dt s v := by
    have hkept := kept_port (p := .kzalloc .first) trivial halloc
    refine Started.kept (t := (t.withMem (t.mem.update .first fun _ => dt.firstChip)).withMem _)
      ?_ (kept_port (p := .clkGet) trivial hclk)
    refine ⟨?_, hkept.regs, hkept.history⟩
    simp only [GpioMem.shadows, Config.withMem_mem]
    exact congrArg XgpioInstance.shadow (t.mem.update_self .first fun _ => dt.firstChip)
  have hfilled : ∀ b, Started dt s
      (v.withMem (v.mem.update .first fun chip => { chip with clk := b })) := fun b =>
    hstarted.kept (kept_withMem (shadows_update_same v.mem .first fun _ => rfl))
  cases clk with
  | ok _ =>
    simp only [exec_bind_iff, exec_modify] at h
    obtain ⟨_, _, rfl, h⟩ := h
    exact exec_probeRegister (hfilled true) h
  | error e =>
    simp only [exec_bind_iff, exec_ite, exec_modify, exec_pure] at h
    obtain ⟨-, hreturn, -⟩ | ⟨-, _, _, rfl, h⟩ := h
    · exact absurd (clkGet_error (exec_unlogged ‹_›)) (by omega)
    · exact exec_probeRegister (hfilled false) h

end Probe

section TakeOver

/-- The calls that write `DATA` or `TRI`. -/
def PinCall.Drives : PinCall → Prop
  | .set .. | .dirIn .. | .dirOut .. => True
  | .irqMask .. | .irqUnmask .. => False

/-- A probe from `s` to `t` has taken over the state of the hardware. -/
structure TakenOver (dual : Bool) (s t : Sys GpioHistory) : Prop where
  unwritten : ∃ ops, t.dev.2 = s.dev.2 ++ ops ∧ ∀ o ∈ ops, ¬o.WritesPins
  state : ∀ c : Channel, c.Present dual → (t.mem.chip c).gpioState = s.dev.1.data c
  dir : ∀ c : Channel, c.Present dual → (t.mem.chip c).gpioDir = s.dev.1.tri c
  first : ∀ (call : PinCall) u, call.Drives → call.channel.Present dual → call.pin < 32 →
    Exec (withMemory gpioCore.logged) (call.prog t.mem) t () u → ∀ c i, ¬call.On c i →
      (u.dev.1.data c).getLsbD i = (t.dev.1.data c).getLsbD i ∧
      (u.dev.1.tri c).getLsbD i = (t.dev.1.tri c).getLsbD i

/-- A read of `DATA` gives what the register holds. -/
def ReadsBack (s : Sys GpioHistory) : Prop := ∀ c, s.dev.1.pins c = s.dev.1.data c

variable {dt : DeviceTree} {s t : Sys GpioHistory}

/-- A call changes the register bits of its pin only, if the shadows are the registers. -/
theorem first_of_coherent {call : PinCall} {u : Sys GpioHistory} (hdrives : call.Drives)
    (hoffset : (t.mem.chip call.channel).offset = call.channel.offset) (hpin : call.pin < 32)
    (hdata : t.dev.1.data call.channel = (t.mem.chip call.channel).gpioState)
    (htri : t.dev.1.tri call.channel = (t.mem.chip call.channel).gpioDir)
    (h : Exec (withMemory gpioCore.logged) (call.prog t.mem) t () u) {c : Channel} {i : ℕ}
    (hother : ¬call.On c i) : (u.dev.1.data c).getLsbD i = (t.dev.1.data c).getLsbD i ∧
      (u.dev.1.tri c).getLsbD i = (t.dev.1.tri c).getLsbD i := by
  have heffect : PinEffect call (t.mapDev Prod.fst) (u.mapDev Prod.fst) := by
    have hafter := (call.exec_iff (s := t.mapDev Prod.fst) hoffset).mp (exec_unlogged h)
    rw [hafter]
    cases call with
    | set c pin val => exact effect_set hpin
    | dirIn c pin => exact effect_dirIn hpin
    | dirOut c pin val => exact effect_dirOut hpin
    | irqMask => exact hdrives.elim
    | irqUnmask => exact hdrives.elim
  by_cases hc : c = call.channel
  · subst hc
    have hi : i ≠ call.pin := fun hi => hother ⟨rfl, hi.symm⟩
    have hpins := heffect.pins i
    rw [if_neg hi] at hpins
    obtain ⟨hdata', htri'⟩ := heffect.registers hdata htri
    rw [show u.dev.1.data call.channel = _ from hdata', show u.dev.1.tri call.channel = _ from htri',
      hdata, htri]
    exact ⟨congrArg Pin.value hpins, congrArg Pin.input hpins⟩
  · have hsame := heffect.other c hc
    exact ⟨congrArg (·.getLsbD i) hsame.data, congrArg (·.getLsbD i) hsame.tri⟩

/-- The single channel is taken over. -/
theorem takenOver_single (hinit : dt.noInit = true) (hdual : dt.dual = false)
    (hshown : ReadsBack s)
    (h : Exec (withMemory gpioCore.logged) (xgpioOfProbe dt) s 0 t) : TakenOver dt.dual s t := by
  obtain ⟨v, w, x, hstarted, hsave, hkept, ⟨hdual', -⟩ | ⟨-, hkept'⟩⟩ := exec_probe h
  · rw [hdual] at hdual'
    exact absurd hdual' Bool.false_ne_true
  have hnoInit : (v.mem.chip .first).noInit = true :=
    (congrArg Shadow.noInit hstarted.shadow).trans hinit
  obtain rfl := exec_saveRegs_noInit hnoInit hsave
  have hend : Kept (readBack .first v) t := hkept.trans hkept'
  have hregs : t.dev.1 = s.dev.1 := hend.regs.trans hstarted.regs
  have hshadow : t.mem.shadows .first = ⟨true, 0, s.dev.1.data .first, s.dev.1.tri .first⟩ := by
    rw [congrFun hend.shadows .first]
    have hoffset : (v.mem.chip .first).offset = 0 := congrArg Shadow.offset hstarted.shadow
    simp only [GpioMem.shadows, readBack, GpioMem.update_self, XgpioInstance.shadow,
      XgpioInstance.withDir, XgpioInstance.withState, hnoInit, hoffset, hstarted.regs]
    rw [← hshown .first]
    rfl
  have hstate : (t.mem.chip .first).gpioState = s.dev.1.data .first :=
    congrArg Shadow.gpioState hshadow
  have hdir : (t.mem.chip .first).gpioDir = s.dev.1.tri .first := congrArg Shadow.gpioDir hshadow
  have honly : ∀ c : Channel, c.Present dt.dual → c = .first := by
    intro c hc
    cases c with
    | first => rfl
    | second =>
      have htrue : dt.dual = true := hc
      rw [hdual] at htrue
      exact absurd htrue Bool.false_ne_true
  refine ⟨?_, ?_, ?_, ?_⟩
  · obtain ⟨ops, hops, hkernel⟩ := hstarted.history
    obtain ⟨ops', hops', hkernel'⟩ := hend.history
    refine ⟨ops ++ ([.readreg dataOffset, .readreg triOffset] ++ ops'), ?_, fun o ho => ?_⟩
    · rw [hops', readBack, hops]
      simp only [List.append_assoc]
    · rcases List.mem_append.mp ho with ho | ho
      · exact (hkernel o ho).not_writesPins
      rcases List.mem_append.mp ho with ho | ho
      · simp only [List.mem_cons, List.not_mem_nil, or_false] at ho
        rcases ho with rfl | rfl <;> exact id
      · exact (hkernel' o ho).not_writesPins
  · intro c hc
    rw [honly c hc]
    exact hstate
  · intro c hc
    rw [honly c hc]
    exact hdir
  · intro call u hdrives hpresent hpin hexec c i hother
    have hfirst := honly _ hpresent
    refine first_of_coherent hdrives ?_ hpin ?_ ?_ hexec hother
    · rw [hfirst]
      exact congrArg Shadow.offset hshadow
    · rw [hfirst, hregs, hstate]
    · rw [hfirst, hregs, hdir]

/-- The second channel gets no `no_init`, so its `DATA` is written. -/
theorem written_second (h : Exec (withMemory gpioCore.logged) (probeSecond dt) s 0 t) :
    ∃ val ops, t.dev.2 = s.dev.2 ++ ops ∧ .writereg (channelOffset + dataOffset) val ∈ ops := by
  simp only [probeSecond, exec_bind_iff, exec_ite, exec_modify, exec_pure] at h
  obtain ⟨_, u, halloc, ⟨_, hfail, -⟩ | ⟨-, _, _, rfl, status, v, hsetup, h⟩⟩ := h
  · exact absurd hfail (by decide)
  obtain ⟨hstatus, herr⟩ | ⟨-, status', w, hadd, h⟩ := h
  · exact absurd (errPmPut_status (exec_unlogged herr)).symm hstatus
  obtain ⟨hstatus, herr⟩ | ⟨hok, _, _, hput, -, rfl⟩ := h
  · exact absurd (errPmPut_status (exec_unlogged herr)).symm hstatus
  obtain rfl := not_not.mp hok
  obtain ⟨x, y, hbefore, hsave, hafter⟩ := exec_gpiochipAdd hadd
  have hfilled : (u.mem.update .second fun _ => dt.secondChip).shadows .second =
      dt.secondChip.shadow :=
    congrArg XgpioInstance.shadow (u.mem.update_self .second fun _ => dt.secondChip)
  have hshadow : x.mem.shadows .second = dt.secondChip.shadow := by
    rw [congrFun hbefore.shadows .second, congrFun (kept_irqSetup hsetup).shadows .second]
    exact hfilled
  have hinit : (x.mem.chip .second).noInit = false := congrArg Shadow.noInit hshadow
  have hoffset : (x.mem.chip .second).offset = channelOffset := congrArg Shadow.offset hshadow
  have hwrite := history_saveRegs hinit hsave
  rw [hoffset] at hwrite
  have hkept := (kept_irqSetup hsetup).history_le
  rw [Config.withMem_dev] at hkept
  obtain ⟨ops, hops⟩ := ((exec_history halloc).trans hkept).trans hbefore.history_le
  obtain ⟨ops', hops'⟩ := (hwrite.trans hafter.history_le).trans (exec_history hput)
  refine ⟨(x.mem.chip .second).gpioState, ops ++ .writereg (channelOffset + dataOffset)
    (x.mem.chip .second).gpioState :: ops', ?_, ?_⟩
  · rw [← hops', ← hops]
    simp only [List.append_assoc, List.cons_append, List.nil_append]
  · exact List.mem_append_right _ (List.mem_cons_self ..)

/-- `DATA` of a second channel is written by every probe that succeeds. -/
theorem not_takenOver_dual (hdual : dt.dual = true)
    (h : Exec (withMemory gpioCore.logged) (xgpioOfProbe dt) s 0 t) : ¬TakenOver dt.dual s t := by
  intro htaken
  obtain ⟨v, w, x, hstarted, hsave, hkept, ⟨-, hsecond⟩ | ⟨hsingle, -⟩⟩ := exec_probe h
  · obtain ⟨val, ops, hops, hwrite⟩ := written_second hsecond
    obtain ⟨before, hbefore⟩ : s.dev.2 <+: x.dev.2 :=
      (hstarted.history_le.trans (exec_history hsave)).trans hkept.history_le
    obtain ⟨all, hall, hpins⟩ := htaken.unwritten
    have hsame : all = before ++ ops := by
      rw [hall, ← hbefore, List.append_assoc] at hops
      exact List.append_cancel_left hops
    have hpins : ¬Port.WritesPins (.writereg (channelOffset + dataOffset) val) :=
      hpins _ (hsame ▸ List.mem_append_right _ hwrite)
    exact hpins ⟨.second, .inl rfl⟩
  · rw [hdual] at hsingle
    exact absurd hsingle.symm Bool.false_ne_true

/-- A probe with `no_init` takes over the hardware exactly when there is one channel. -/
theorem noInit_takes_over_iff (dt : DeviceTree) (hinit : dt.noInit = true) (s t : Sys GpioHistory)
    (hshown : ReadsBack s) (h : Exec (withMemory gpioCore.logged) (xgpioOfProbe dt) s 0 t) :
    TakenOver dt.dual s t ↔ dt.dual = false := by
  constructor
  · intro htaken
    by_contra hdual
    exact not_takenOver_dual (Bool.of_not_eq_false hdual) h htaken
  · exact fun hdual => takenOver_single hinit hdual hshown h

def noInitTree (dual : BitVec 32) : DeviceTree := { treeOf dual with noInit := true }

/-- A boot loader has set pin 0 of each channel and made it an output. -/
def preset : Sys GpioHistory where
  mem := blank.mem
  trace := []
  dev := ({ blank.dev with pins := fun _ => 1, data := fun _ => 1, tri := fun _ => 2 }, [])

def takeover (dual : BitVec 32) : Sys GpioHistory :=
  ((run (onDevice (answerLogged GpioRegs.answer) fun d p => willing d.1 p) 1
    (xgpioOfProbe (noInitTree dual)) preset).getD (0, preset)).2

theorem exec_takeover {dual : BitVec 32} {t : Sys GpioHistory}
    (h : run (onDevice (answerLogged GpioRegs.answer) fun d p => willing d.1 p) 1
      (xgpioOfProbe (noInitTree dual)) preset = some (0, t)) :
    Exec (withMemory gpioCore.logged) (xgpioOfProbe (noInitTree dual)) preset 0 t := by
  have hexec := (onDevice_refines (answerLogged GpioRegs.answer) fun d p => willing d.1 p).exec _
    ((watch_sound _ _).1 _ _ h)
  exact (withMemory_refines (answerLogged_refines GpioRegs.answer)).exec _ hexec

/-- The one channel of a device is taken over. -/
theorem noInit_takes_over_single : TakenOver (noInitTree 0).dual preset (takeover 0) :=
  (noInit_takes_over_iff (noInitTree 0) rfl preset (takeover 0) (fun _ => rfl)
    (exec_takeover rfl)).mpr rfl

/-- A second channel is not. -/
theorem second_channel_overwritten : ¬∀ dt : DeviceTree, dt.noInit = true →
    ∀ s t : Sys GpioHistory, ReadsBack s →
      Exec (withMemory gpioCore.logged) (xgpioOfProbe dt) s 0 t → TakenOver dt.dual s t := by
  intro h
  have hstate := (h (noInitTree 1) rfl preset (takeover 1) (fun _ => rfl) (exec_takeover rfl)).state
    .second rfl
  exact absurd hstate (by decide)

end TakeOver

end PynqPrio.Gpio
