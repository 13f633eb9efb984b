import PynqPrio.UartCore

/-!
# What the functions of the UART driver do

One rule for each function on the core, with what the device may do after each access.
-/
namespace PynqPrio.Uart
open Programs Programs.Driver Programs.Prog

section Rules

variable {s t : Sys} {stat : BitVec 32}

theorem exec_in32 (offset : ℕ) (x : BitVec 32) :
    Exec (withMemory uartCore) (uartIn32 offset) s x t ↔ ∃ stale l,
      x = (s.dev.read stale offset).1 ∧ t = s.withDev ((s.dev.read stale offset).2.acts l) := by
  refine (exec_port (R := Port.Res) (.in32 offset) x).trans ?_
  constructor
  · rintro ⟨_, ⟨k, ⟨⟩⟩, rfl⟩
    exact ⟨k.stale, k.acts, rfl, rfl⟩
  · rintro ⟨stale, l, rfl, rfl⟩
    exact ⟨_, ⟨⟨stale, 0, l⟩, rfl⟩, rfl⟩

@[simp] theorem exec_out32 (val : BitVec 32) (offset : ℕ) (x : Unit) :
    Exec (withMemory uartCore) (uartOut32 val offset) s x t ↔
      ∃ l, t = s.withDev ((s.dev.write val offset).acts l) := by
  refine (exec_port (R := Port.Res) (.out32 val offset) x).trans ?_
  constructor
  · rintro ⟨_, ⟨k, ⟨⟩⟩, rfl⟩
    exact ⟨k.acts, rfl⟩
  · rintro ⟨l, rfl⟩
    exact ⟨_, ⟨⟨0, 0, l⟩, rfl⟩, rfl⟩

@[simp] theorem exec_status (x : BitVec 32) :
    Exec (withMemory uartCore) (uartIn32 uliteStatus) s x t ↔
      x = s.dev.status ∧ ∃ l, t = s.withDev (s.dev.clearErrors.acts l) := by
  rw [exec_in32]
  constructor
  · rintro ⟨_, l, rfl, rfl⟩
    exact ⟨rfl, l, rfl⟩
  · rintro ⟨rfl, l, rfl⟩
    exact ⟨0, l, rfl, rfl⟩

/-- A byte has been taken from the receiver. -/
def UartRegs.popRx (d : UartRegs) : UartRegs := { d with rx := d.rx.tail }

theorem exec_rx {x : BitVec 32} (h : Exec (withMemory uartCore) (uartIn32 uliteRx) s x t) :
    ∃ l, t = s.withDev (s.dev.popRx.acts l) := by
  obtain ⟨stale, l, -, rfl⟩ := (exec_in32 _ _).mp h
  refine ⟨l, ?_⟩
  have hread : (s.dev.read stale uliteRx).2 = s.dev.popRx := by
    rw [UartRegs.read, if_pos rfl, UartRegs.popRx]
    cases hrx : s.dev.rx with
    | nil => exact congrArg (fun rx => { s.dev with rx := rx }) hrx
    | cons b rest => rfl
  rw [hread]

/-- What `ulite_receive` counts. -/
def Icount.received (stat : BitVec 32) (n : Icount) : Icount where
  rx := if stat &&& statusRxvalid ≠ 0 then n.rx + 1 else n.rx
  tx := n.tx
  parity := if stat &&& statusRxvalid ≠ 0 ∧ stat &&& statusParity ≠ 0 then n.parity + 1
    else n.parity
  overrun := if stat &&& statusOverrun ≠ 0 then n.overrun + 1 else n.overrun
  frame := if stat &&& statusFrame ≠ 0 then n.frame + 1 else n.frame

theorem exec_countErrors (x : Unit) :
    Exec (withMemory uartCore) (countErrors stat) s x t ↔
      t = s.withMem (s.mem.withIcount fun n => { n with
        overrun := if stat &&& statusOverrun ≠ 0 then n.overrun + 1 else n.overrun
        frame := if stat &&& statusFrame ≠ 0 then n.frame + 1 else n.frame }) := by
  simp only [countErrors, exec_bind_iff, exec_onlyIf_modify]
  constructor
  · rintro ⟨_, _, rfl, rfl⟩
    simp only [Config.withMem, UartMem.withIcount]
    split <;> split <;> rfl
  · rintro rfl
    refine ⟨(), _, rfl, ?_⟩
    simp only [Config.withMem, UartMem.withIcount]
    split <;> split <;> rfl

theorem exec_insertChars {ch : BitVec 8} {x : Unit}
    (h : Exec (withMemory uartCore) (insertChars stat ch) s x t) :
    t.mem = s.mem ∧ t.dev = s.dev := by
  simp only [insertChars, exec_bind_iff, exec_get, exec_onlyIf_note] at h
  obtain ⟨_, _, ⟨rfl, rfl⟩, _, _, rfl, _, _, rfl, rfl⟩ := h
  exact ⟨rfl, rfl⟩

theorem exec_receiveChar {ch : BitVec 8} (h : Exec (withMemory uartCore) (receiveChar stat) s ch t) :
    t.mem = s.mem.withIcount (fun n => { n with
      rx := if stat &&& statusRxvalid ≠ 0 then n.rx + 1 else n.rx
      parity := if stat &&& statusRxvalid ≠ 0 ∧ stat &&& statusParity ≠ 0 then n.parity + 1
        else n.parity }) ∧
      (t.dev = s.dev ∨ ∃ l, t.dev = s.dev.popRx.acts l) := by
  simp only [receiveChar, exec_ite, exec_bind_iff, exec_modify, exec_onlyIf_modify,
    exec_pure] at h
  obtain ⟨hvalid, _, _, rfl, x, u, hrx, _, _, rfl, -, rfl⟩ | ⟨hvalid, -, rfl⟩ := h
  · obtain ⟨l, rfl⟩ := exec_rx hrx
    refine ⟨?_, .inr ⟨l, rfl⟩⟩
    simp only [Config.withMem, Config.withDev, UartMem.withIcount]
    split <;> simp_all
  · refine ⟨?_, .inl rfl⟩
    simp only [hvalid, UartMem.withIcount]
    simp

structure Received (stat : BitVec 32) (s : Sys) (r : Bool) (t : Sys) : Prop where
  busy : r = decide (stat &&& (statusRxvalid ||| statusOverrun ||| statusFrame) ≠ 0)
  mem : t.mem = s.mem.withIcount (if r = true then Icount.received stat else id)
  dev : t.dev = s.dev ∨ (r = true ∧ ∃ l, t.dev = s.dev.popRx.acts l)

theorem received_of_exec {r : Bool} (h : Exec (withMemory uartCore) (uliteReceive stat) s r t) :
    Received stat s r t := by
  simp only [uliteReceive, exec_ite, exec_bind_iff, exec_pure, exec_countErrors] at h
  obtain ⟨hquiet, rfl, rfl⟩ | ⟨hbusy, ch, u, hchar, _, _, rfl, _, _, hinsert, rfl, rfl⟩ := h
  · exact ⟨(decide_eq_false (not_not.mpr hquiet)).symm, rfl, .inl rfl⟩
  · obtain ⟨hmem, hdev⟩ := exec_insertChars hinsert
    obtain ⟨hmem', hdev'⟩ := exec_receiveChar hchar
    refine ⟨(decide_eq_true hbusy).symm, ?_, ?_⟩
    · rw [hmem, Config.withMem_mem, hmem']
      rfl
    · rw [hdev, Config.withMem_dev]
      exact hdev'.imp_right fun h => ⟨rfl, h⟩

/-- The memory after the high-priority character has been sent. -/
def UartMem.sentXChar (d : UartMem) : UartMem :=
  { d with xChar := 0, icount := { d.icount with tx := d.icount.tx + 1 } }

/-- The memory after a byte of the buffer has been sent. -/
def UartMem.sentByte (d : UartMem) : UartMem :=
  { d with
    xmit := { d.xmit with tail := nextTail d.xmit.tail }
    icount := { d.icount with tx := d.icount.tx + 1 } }

inductive Transmitted (stat : BitVec 32) (s : Sys) : Bool → Sys → Prop where
  | full (hfull : stat &&& statusTxfull ≠ 0) : Transmitted stat s false s
  | idle (hroom : stat &&& statusTxfull = 0) (hx : s.mem.xChar = 0)
      (hidle : uartCircEmpty s.mem.xmit ∨ s.mem.txStopped = true) : Transmitted stat s false s
  | xChar {t : Sys} (l : List Activity) (hroom : stat &&& statusTxfull = 0)
      (hx : s.mem.xChar ≠ 0) (hmem : t.mem = s.mem.sentXChar)
      (hdev : t.dev = (s.dev.send s.mem.xChar).acts l) : Transmitted stat s true t
  | byte {t : Sys} (l : List Activity) (hroom : stat &&& statusTxfull = 0)
      (hx : s.mem.xChar = 0) (hne : ¬uartCircEmpty s.mem.xmit) (hgo : s.mem.txStopped = false)
      (hmem : t.mem = s.mem.sentByte)
      (hdev : t.dev = (s.dev.send (s.mem.xmit.buf s.mem.xmit.tail)).acts l) :
      Transmitted stat s true t

/-- The registers take the low byte of what is written to `TX`. -/
theorem write_tx (d : UartRegs) (b : BitVec 8) : d.write (b.setWidth 32) uliteTx = d.send b := by
  have hbyte : (b.setWidth 32).setWidth 8 = b := BitVec.setWidth_setWidth_of_le b (by decide)
  rw [UartRegs.write, if_pos rfl, hbyte]

theorem transmitted_of_exec {r : Bool} (h : Exec (withMemory uartCore) (uliteTransmit stat) s r t) :
    Transmitted stat s r t := by
  simp only [uliteTransmit, exec_bind_iff, exec_get, exec_ite, exec_pure, exec_modify,
    exec_out32, exec_onlyIf_note, write_tx] at h
  obtain ⟨_, _, ⟨rfl, rfl⟩, ⟨hfull, rfl, rfl⟩ | ⟨hroom, h⟩⟩ := h
  · exact .full hfull
  have hroom := not_not.mp hroom
  obtain ⟨hx, _, _, ⟨l, rfl⟩, _, _, rfl, _, _, rfl, rfl, rfl⟩ | ⟨hx, h⟩ := h
  · exact .xChar l hroom hx rfl rfl
  have hx := not_not.mp hx
  obtain ⟨hidle, rfl, rfl⟩ | ⟨hbusy, _, _, ⟨l, rfl⟩, _, _, rfl, _, _, rfl, _, _, ⟨rfl, rfl⟩, _, _,
    rfl, rfl, rfl⟩ := h
  · exact .idle hroom hx hidle
  · obtain ⟨hne, hgo⟩ := not_or.mp hbusy
    exact .byte l hroom hx hne (Bool.not_eq_true _ ▸ hgo) rfl rfl

/-- A run of `ulite_start_tx`. -/
theorem startTx_of_exec {x : Unit} (h : Exec (withMemory uartCore) uliteStartTx s x t) :
    ∃ l r, Transmitted s.dev.status (s.withDev (s.dev.clearErrors.acts l)) r t := by
  simp only [uliteStartTx, exec_bind_iff, exec_status, exec_pure] at h
  obtain ⟨_, _, ⟨rfl, l, rfl⟩, r, _, hrun, -, rfl⟩ := h
  exact ⟨l, r, transmitted_of_exec hrun⟩

/-- A run of the body of the loop of `ulite_isr`. -/
theorem iteration_of_exec {r : Bool} (h : Exec (withMemory uartCore) isrIteration s r t) :
    ∃ l r₁ r₂ u, Received s.dev.status (s.withDev (s.dev.clearErrors.acts l)) r₁ u ∧
      Transmitted s.dev.status u r₂ t ∧ r = (r₁ || r₂) := by
  simp only [isrIteration, exec_bind_iff, exec_status, exec_pure] at h
  obtain ⟨_, _, ⟨rfl, l, rfl⟩, r₁, u, hreceive, r₂, _, htransmit, rfl, rfl⟩ := h
  exact ⟨l, r₁, r₂, u, received_of_exec hreceive, transmitted_of_exec htransmit, rfl⟩

/-! The clock and the interrupt. -/

theorem exec_clkEnable {ret : ℤ} (h : Exec (withMemory uartCore) clkEnable s ret t) :
    ∃ l, t.dev = s.dev.acts l ∧ if s.mem.clk = true ∧ ret = 0
      then t.mem = s.mem.enabled
      else t.mem = s.mem ∧ (s.mem.clk = false → ret = 0) := by
  rw [clkEnable, exec_get_bind] at h
  simp only [exec_bind_iff, exec_ite, exec_pure, exec_port, exec_onlyIf_modify] at h
  obtain ⟨hclk, rfl, rfl⟩ | ⟨hclk, _, _, ⟨_, ⟨k, ⟨⟩⟩, rfl⟩, _, _, rfl, rfl, rfl⟩ := h
  · refine ⟨[], rfl, ?_⟩
    rw [if_neg fun h => absurd (hclk.symm.trans h.1) Bool.false_ne_true]
    exact ⟨rfl, fun _ => rfl⟩
  · refine ⟨k.acts, rfl, ?_⟩
    have hclk : s.mem.clk = true := Bool.not_eq_false _ ▸ hclk
    by_cases hret : k.result = 0
    · rw [if_pos ⟨hclk, hret⟩]
      exact if_pos hret
    · rw [if_neg fun h => hret h.2]
      exact ⟨if_neg hret, fun hnull => absurd (hnull.symm.trans hclk) Bool.false_ne_true⟩

@[simp] theorem exec_clkDisable {dev : Machine Port Port.Res UartRegs} (x : Unit) :
    Exec (withMemory dev) clkDisable s x t ↔
      t = s.withMem (if s.mem.clk = true then s.mem.disabled else s.mem) := by
  rw [clkDisable, exec_get_bind, exec_onlyIf_modify]

theorem exec_requestIrq {ret : ℤ} (h : Exec (withMemory uartCore) requestIrq s ret t) :
    ∃ l, t.dev = s.dev.acts l ∧
      t.mem = if ret = 0 then { s.mem with irqRequested := true } else s.mem := by
  simp only [requestIrq, exec_bind_iff, exec_port, exec_onlyIf_modify, exec_pure] at h
  obtain ⟨_, _, ⟨_, ⟨k, ⟨⟩⟩, rfl⟩, _, _, rfl, rfl, rfl⟩ := h
  exact ⟨k.acts, rfl, rfl⟩

/-- A successful run of `ulite_startup`. -/
theorem startup_of_exec (h : Exec (withMemory uartCore) uliteStartup s 0 t) :
    (∃ d l l', t.dev =
      ((UartRegs.control d (controlRstRx ||| controlRstTx)).acts l |>.control controlIe).acts l') ∧
      t.mem.xmit = s.mem.xmit ∧ t.mem.xChar = s.mem.xChar := by
  simp only [uliteStartup, exec_bind_iff, exec_ite, exec_pure, exec_out32] at h
  obtain ⟨_, u, henable, ⟨hfail, hret, -⟩ | ⟨-, _, v, hirq, hrest⟩⟩ := h
  · exact absurd hret.symm hfail
  obtain ⟨hfail, hret, -⟩ | ⟨-, _, _, ⟨l, rfl⟩, _, _, ⟨l', rfl⟩, -, rfl⟩ := hrest
  · exact absurd hret.symm hfail
  obtain ⟨-, -, hmem⟩ := exec_clkEnable henable
  obtain ⟨-, -, hmem'⟩ := exec_requestIrq hirq
  have hkeep : u.mem.xmit = s.mem.xmit ∧ u.mem.xChar = s.mem.xChar := by
    split at hmem
    · rw [hmem]
      exact ⟨rfl, rfl⟩
    · rw [hmem.1]
      exact ⟨rfl, rfl⟩
  refine ⟨⟨v.dev, l, l', rfl⟩, ?_⟩
  rw [Config.withDev_mem, Config.withDev_mem, hmem', ← hkeep.1, ← hkeep.2]
  split <;> exact ⟨rfl, rfl⟩

end Rules

end PynqPrio.Uart
