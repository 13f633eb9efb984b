import PynqPrio.UartTransmit
import PynqPrio.ProofOutlines

/-!
# The console of the UART driver

`ulite_console_write` sends with its interrupts disabled. Here the interrupt of the
transmitter is a pulse: the device delivers it if the interrupt is enabled when the last byte
leaves the FIFO, and it is lost otherwise.
-/
namespace PynqPrio.Uart
open Programs Programs.Driver Programs.Prog

section Console

/-- The registers, and whether the second that the console waits has passed. -/
inductive ConsoleOp where
  | in32 (offset : ℕ)
  | out32 (val : BitVec 32) (offset : ℕ)
  | timeAfter

abbrev ConsoleOp.Res : ConsoleOp → Type
  | .in32 _ => BitVec 32
  | .out32 .. => Unit
  | .timeAfter => Bool

/-- The functions of the console, which run with the lock of the port. -/
abbrev UliteConsole := Driver UartMem Event ConsoleOp.Res

def consoleIn32 (offset : ℕ) : UliteConsole (BitVec 32) := port (P := ConsoleOp) (.in32 offset)

def consoleOut32 (val : BitVec 32) (offset : ℕ) : UliteConsole Unit :=
  port (P := ConsoleOp) (.out32 val offset)

def timeAfter : UliteConsole Bool := port (P := ConsoleOp) .timeAfter

def uliteConsoleWaitTx : UliteConsole Unit :=
  Prog.iterate (fun _ : Unit => do
    let stat ← consoleIn32 uliteStatus
    let val : BitVec 8 := stat.setWidth 8
    if val.setWidth 32 &&& statusTxfull = 0 then return .inr ()
    else do
      let late ← timeAfter
      return if late = true then .inr () else .inl ()) ()

def uliteConsolePutchar (ch : BitVec 8) : UliteConsole Unit := do
  uliteConsoleWaitTx
  consoleOut32 (ch.setWidth 32) uliteTx

/-- The serial core sends a carriage return before a line feed. -/
def uartConsoleWrite (s : List (BitVec 8)) (putchar : BitVec 8 → UliteConsole Unit) :
    UliteConsole Unit :=
  s.forM fun ch => do
    onlyIf (ch = 0x0a) (putchar 0x0d)
    putchar ch

def uliteConsoleWrite (s : List (BitVec 8)) : UliteConsole Unit := do
  let stat ← consoleIn32 uliteStatus
  let ier := stat &&& statusIe
  consoleOut32 0 uliteControl
  uartConsoleWrite s uliteConsolePutchar
  uliteConsoleWaitTx
  onlyIf (ier ≠ 0) (consoleOut32 controlIe uliteControl)

end Console

section Pulse

/-- The registers with a record: whether the interrupt of the transmitter has been delivered,
and each value written to `CONTROL` with the level of the FIFO that it has met. -/
structure PulseRegs where
  uart : UartRegs
  pulsed : Bool
  controls : List (BitVec 32 × ℕ)
  deriving DecidableEq

namespace PulseRegs

/-- The registers change; if that empties the FIFO with the interrupt enabled, the interrupt is
delivered. -/
def become (d : PulseRegs) (u : UartRegs) : PulseRegs where
  uart := u
  pulsed := d.pulsed || (d.uart.ie && !d.uart.tx.isEmpty && u.tx.isEmpty)
  controls := d.controls

def act (d : PulseRegs) (a : Activity) : PulseRegs := d.become (d.uart.act a)

def acts (d : PulseRegs) (l : List Activity) : PulseRegs := l.foldl act d

def read (d : PulseRegs) (stale : BitVec 32) (offset : ℕ) : BitVec 32 × PulseRegs :=
  ((d.uart.read stale offset).1, d.become (d.uart.read stale offset).2)

def write (d : PulseRegs) (val : BitVec 32) (offset : ℕ) : PulseRegs :=
  { d.become (d.uart.write val offset) with
    controls := if offset = uliteControl then d.controls ++ [(val, d.uart.tx.length)]
      else d.controls }

end PulseRegs

structure ConsoleOutcome where
  stale : BitVec 32
  acts : List Activity
  late : Bool

def PulseRegs.answer (d : PulseRegs) (k : ConsoleOutcome) :
    (p : ConsoleOp) → Option (ConsoleOp.Res p × PulseRegs)
  | .in32 offset => some ((d.read k.stale offset).1, (d.read k.stale offset).2.acts k.acts)
  | .out32 val offset => some ((), (d.write val offset).acts k.acts)
  | .timeAfter => some (k.late, d.acts k.acts)

/-- The core with the pulse as the device of the console. -/
def pulseCore : Machine ConsoleOp ConsoleOp.Res PulseRegs := ofAnswer PulseRegs.answer

abbrev ConsoleSys := Config UartMem Event PulseRegs

variable {d : PulseRegs} {s t : ConsoleSys}

/-- The interrupt is enabled and the transmitter has something to send or has interrupted. -/
structure Continues (d : PulseRegs) : Prop where
  ie : d.uart.ie = true
  live : d.uart.tx ≠ [] ∨ d.pulsed = true

/-- The interrupt is disabled, and neither it nor `CONTROL` has been since. -/
structure Masked (d e : PulseRegs) : Prop where
  ie : e.uart.ie = false
  pulsed : e.pulsed = d.pulsed
  controls : e.controls = d.controls

/-! What the device does by itself. -/

theorem UartRegs.act_ie (d : UartRegs) (a : Activity) : (d.act a).ie = d.ie := by
  cases a with
  | arrive b =>
    simp only [UartRegs.act]
    split <;> rfl
  | _ => rfl

/-- The device adds nothing to the FIFO of the transmitter. -/
theorem UartRegs.act_empty {d : UartRegs} (h : d.tx = []) (a : Activity) : (d.act a).tx = [] := by
  cases a with
  | drain =>
    simp only [UartRegs.act, h]
    rfl
  | arrive b =>
    simp only [UartRegs.act]
    split <;> exact h
  | _ => exact h

/-- What every activity keeps is kept. -/
theorem PulseRegs.acts_invariant {inv : PulseRegs → Prop} (hact : ∀ d a, inv d → inv (d.act a))
    (h : inv d) (l : List Activity) : inv (d.acts l) := by
  induction l generalizing d with
  | nil => exact h
  | cons a l ih => exact ih (hact d a h)

/-- With the interrupt enabled it has been delivered if the FIFO has become empty. -/
structure Armed (d : PulseRegs) : Prop where
  ie : d.uart.ie = true
  pulsed : d.pulsed = true ↔ d.uart.tx = []

theorem Armed.act (h : Armed d) (a : Activity) : Armed (d.act a) where
  ie := (d.uart.act_ie a).trans h.ie
  pulsed := by
    have hpulsed : (d.act a).pulsed =
        (d.pulsed || (d.uart.ie && !d.uart.tx.isEmpty && (d.uart.act a).tx.isEmpty)) := rfl
    rw [hpulsed, h.ie]
    by_cases hempty : d.uart.tx = []
    · have hstill := UartRegs.act_empty hempty a
      simp [PulseRegs.act, PulseRegs.become, h.pulsed.mpr hempty, hstill]
    · have hnot : d.pulsed = false := Bool.eq_false_iff.mpr (mt h.pulsed.mp hempty)
      simp [PulseRegs.act, PulseRegs.become, hnot, hempty]

theorem Continues.act (h : Continues d) (a : Activity) : Continues (d.act a) where
  ie := (d.uart.act_ie a).trans h.ie
  live := by
    have hpulsed : (d.act a).pulsed =
        (d.pulsed || (d.uart.ie && !d.uart.tx.isEmpty && (d.uart.act a).tx.isEmpty)) := rfl
    obtain htx | hdone := h.live
    · by_cases hempty : (d.uart.act a).tx = []
      · right
        rw [hpulsed, h.ie]
        simp [htx, hempty]
      · exact .inl hempty
    · right
      rw [hpulsed, hdone]
      rfl

/-- Once the FIFO is empty, no interrupt comes. -/
theorem lost_act (h : d.uart.tx = [] ∧ d.pulsed = false) (a : Activity) :
    (d.act a).uart.tx = [] ∧ (d.act a).pulsed = false := by
  refine ⟨UartRegs.act_empty h.1 a, ?_⟩
  simp [PulseRegs.act, PulseRegs.become, h.1, h.2]

theorem Masked.become {e : PulseRegs} (h : Masked d e) {u : UartRegs} (hu : u.ie = false) :
    Masked d (e.become u) where
  ie := hu
  pulsed := by
    simp only [PulseRegs.become, h.ie, Bool.false_and, Bool.or_false]
    exact h.pulsed
  controls := h.controls

theorem Masked.acts {e : PulseRegs} (h : Masked d e) (l : List Activity) : Masked d (e.acts l) :=
  PulseRegs.acts_invariant (fun e a (h : Masked d e) =>
    h.become ((e.uart.act_ie a).trans h.ie)) h l

/-! The accesses. -/

theorem UartRegs.read_ie (d : UartRegs) (stale : BitVec 32) (offset : ℕ) :
    (d.read stale offset).2.ie = d.ie := by
  rw [UartRegs.read]
  split
  · split <;> rfl
  · split <;> rfl

theorem UartRegs.write_ie (d : UartRegs) (val : BitVec 32) : (d.write val uliteTx).ie = d.ie := by
  rw [UartRegs.write, if_pos rfl, UartRegs.send]
  split <;> rfl

/-- A byte for the transmitter is not a value for `CONTROL`. -/
theorem PulseRegs.write_tx (d : PulseRegs) (val : BitVec 32) :
    d.write val uliteTx = d.become (d.uart.write val uliteTx) := by
  rw [PulseRegs.write, if_neg (by decide)]
  rfl

theorem status_ie (d : UartRegs) : d.status &&& statusIe ≠ 0 ↔ d.ie = true := by
  have hbit : ∀ a b c e f g h i : Bool,
      statusWord a b c e f g h i &&& statusIe ≠ 0 ↔ f = true := by decide
  rw [UartRegs.status, hbit]

theorem exec_consoleStatus {x : BitVec 32}
    (h : Exec (withMemory pulseCore) (consoleIn32 uliteStatus) s x t) :
    x = s.dev.uart.status ∧ ∃ l, t = s.withDev ((s.dev.become s.dev.uart.clearErrors).acts l) := by
  obtain ⟨_, ⟨k, ⟨⟩⟩, rfl⟩ := (exec_port (R := ConsoleOp.Res) (.in32 uliteStatus) x).mp h
  exact ⟨rfl, k.acts, rfl⟩

theorem exec_consoleOut32 {val : BitVec 32} {offset : ℕ} {x : Unit}
    (h : Exec (withMemory pulseCore) (consoleOut32 val offset) s x t) :
    ∃ l, t = s.withDev ((s.dev.write val offset).acts l) := by
  obtain ⟨_, ⟨k, ⟨⟩⟩, rfl⟩ := (exec_port (R := ConsoleOp.Res) (.out32 val offset) x).mp h
  exact ⟨k.acts, rfl⟩

/-- The accesses of `ulite_console_putchar`. -/
def ConsoleOp.Sends : ConsoleOp → Prop
  | .in32 _ | .timeAfter => True
  | .out32 _ offset => offset = uliteTx

theorem sends_waitTx : UsesPorts ConsoleOp.Sends uliteConsoleWaitTx :=
  .iterate fun _ => .bind (.port trivial) fun _ => .ite (.pure _) <|
    .bind (.port trivial) fun _ => .pure _

theorem sends_putchar (ch : BitVec 8) : UsesPorts ConsoleOp.Sends (uliteConsolePutchar ch) :=
  .bind sends_waitTx fun _ => .port rfl

theorem sends_write (str : List (BitVec 8)) :
    UsesPorts ConsoleOp.Sends (uartConsoleWrite str uliteConsolePutchar) := by
  induction str with
  | nil => exact .pure _
  | cons ch str ih =>
    refine .bind (.bind (.ite (sends_putchar _) (.pure _)) fun _ => sends_putchar ch) fun _ => ih

/-- A program that only sends keeps the interrupt disabled. -/
theorem masked_of_sends {q : UliteConsole Unit} (hq : UsesPorts ConsoleOp.Sends q) {x : Unit}
    (h : Exec (withMemory pulseCore) q s x t) (hs : Masked d s.dev) : Masked d t.dev := by
  refine (hq.meets (H := anyAccess) (I := fun e => Masked d e) ?_ hs).2 x t h
  rintro p e y e' hp he ⟨k, hk⟩
  refine ⟨trivial, ?_⟩
  cases p with
  | in32 offset =>
    obtain ⟨-, rfl⟩ := Prod.mk.inj (Option.some.inj hk)
    exact (he.become ((e.uart.read_ie k.stale offset).trans he.ie)).acts k.acts
  | out32 val offset =>
    obtain ⟨-, rfl⟩ := Prod.mk.inj (Option.some.inj hk)
    obtain rfl := hp
    rw [PulseRegs.write_tx]
    exact (he.become ((e.uart.write_ie val).trans he.ie)).acts k.acts
  | timeAfter =>
    obtain ⟨-, rfl⟩ := Prod.mk.inj (Option.some.inj hk)
    exact he.acts k.acts

/-- `CONTROL` is written without a reset. -/
theorem write_control {val : BitVec 32} {b : Bool} (htx : val &&& controlRstTx = 0)
    (hrx : val &&& controlRstRx = 0) (hie : decide (val &&& controlIe ≠ 0) = b) :
    d.write val uliteControl = { d with
      uart := { d.uart with ie := b }
      controls := d.controls ++ [(val, d.uart.tx.length)] } := by
  have hcontrol : d.uart.write val uliteControl = { d.uart with ie := b } := by
    rw [UartRegs.write, if_neg (by decide), if_pos rfl, UartRegs.control, hie]
    simp [htx, hrx]
  rw [PulseRegs.write, if_pos rfl, hcontrol]
  simp [PulseRegs.become]

theorem PulseRegs.acts_controls (d : PulseRegs) (l : List Activity) :
    (d.acts l).controls = d.controls :=
  PulseRegs.acts_invariant (fun e _ (h : e.controls = d.controls) => h) rfl l

/-- The interrupt is enabled again, whatever the device does then. -/
theorem continues_enabled {e : PulseRegs} {stat : BitVec 32} (hstat : stat &&& statusIe ≠ 0)
    (h : Exec (withMemory pulseCore)
      (onlyIf (stat &&& statusIe ≠ 0) (consoleOut32 controlIe uliteControl)) s () t)
    (he : Masked e s.dev) :
    t.dev.controls = e.controls ++ [(controlIe, s.dev.uart.tx.length)] ∧
      (Continues t.dev ↔ e.pulsed = true ∨ s.dev.uart.tx ≠ []) := by
  rw [onlyIf, if_pos hstat] at h
  obtain ⟨l, rfl⟩ := exec_consoleOut32 h
  rw [write_control (b := true) (by decide) (by decide) (by decide), Config.withDev_dev]
  refine ⟨?_, ⟨fun hcontinues => ?_, fun hlive => ?_⟩⟩
  · rw [PulseRegs.acts_controls, he.controls]
  · by_contra hnot
    obtain ⟨hpulsed, hempty⟩ := not_or.mp hnot
    have hlost := PulseRegs.acts_invariant (fun d a (h : d.uart.tx = [] ∧ d.pulsed = false) =>
      lost_act h a) (d := { s.dev with
        uart := { s.dev.uart with ie := true }
        controls := s.dev.controls ++ [(controlIe, s.dev.uart.tx.length)] })
      ⟨not_not.mp hempty, he.pulsed.trans (Bool.eq_false_iff.mpr hpulsed)⟩ l
    obtain htx | hdone := hcontinues.live
    · exact htx hlost.1
    · exact absurd (hlost.2.symm.trans hdone) Bool.false_ne_true
  · refine PulseRegs.acts_invariant (fun d a (h : Continues d) => h.act a) ⟨rfl, ?_⟩ l
    rw [← he.pulsed] at hlive
    exact hlive.symm

/-- What waits to be sent goes on after `ulite_console_write` exactly if the FIFO has become
empty before the interrupt is disabled, or is not empty when it is enabled again. -/
theorem console_continues_iff (str : List (BitVec 8)) (s t : ConsoleSys)
    (hie : s.dev.uart.ie = true) (hbusy : s.dev.uart.tx ≠ []) (hpulsed : s.dev.pulsed = false)
    (h : Exec (withMemory pulseCore) (uliteConsoleWrite str) s () t) :
    ∃ off on : ℕ, t.dev.controls = s.dev.controls ++ [(0, off), (controlIe, on)] ∧
      (Continues t.dev ↔ off = 0 ∨ on ≠ 0) := by
  simp only [uliteConsoleWrite, exec_bind_iff] at h
  obtain ⟨stat, u, hstat, _, v, hoff, _, w, hwrite, _, x, hwait, hon⟩ := h
  obtain ⟨rfl, l, rfl⟩ := exec_consoleStatus hstat
  -- up to the write that disables the interrupt, it is delivered when the FIFO becomes empty
  have hread : s.dev.become s.dev.uart.clearErrors =
      { s.dev with uart := s.dev.uart.clearErrors } := by
    simp [PulseRegs.become, UartRegs.clearErrors]
  have harmed : Armed (s.dev.become s.dev.uart.clearErrors) := by
    rw [hread]
    exact ⟨hie, by simp [hpulsed, UartRegs.clearErrors, hbusy]⟩
  have harmed := PulseRegs.acts_invariant (fun d a (h : Armed d) => h.act a) harmed l
  have hcontrols : ((s.dev.become s.dev.uart.clearErrors).acts l).controls = s.dev.controls :=
    PulseRegs.acts_controls _ l
  -- from it to the last one, nothing is delivered
  obtain ⟨l', rfl⟩ := exec_consoleOut32 hoff
  rw [Config.withDev_dev] at hwrite
  generalize (s.dev.become s.dev.uart.clearErrors).acts l = d at *
  have hmasked : Masked (d.write 0 uliteControl) (d.write 0 uliteControl) := by
    rw [write_control (b := false) (by decide) (by decide) (by decide)]
    exact ⟨rfl, rfl, rfl⟩
  have hmasked := masked_of_sends (sends_write str) hwrite (by exact hmasked.acts l')
  have hmasked := masked_of_sends sends_waitTx hwait hmasked
  obtain ⟨hlog, hiff⟩ := continues_enabled ((status_ie _).mpr hie) hon hmasked
  rw [write_control (b := false) (by decide) (by decide) (by decide)] at hlog hiff
  refine ⟨d.uart.tx.length, x.dev.uart.tx.length, ?_, ?_⟩
  · rw [hlog, hcontrols, List.append_assoc]
    rfl
  · rw [hiff, List.length_eq_zero_iff, ne_eq, ne_eq, List.length_eq_zero_iff]
    exact or_congr_left harmed.pulsed

end Pulse

section Runs

/-- A port with a byte that waits and one that is being sent. -/
def sending : ConsoleSys where
  mem := { freshPort.mem with xmit := ⟨fun _ => 0x41, 1, 0⟩ }
  trace := []
  dev := ⟨{ freshPort.dev with tx := [0x40] }, false, []⟩

def still (_ : PulseRegs) (_ : ConsoleOp) : ConsoleOutcome := ⟨0, [], false⟩

def drains (_ : PulseRegs) : ConsoleOp → ConsoleOutcome
  | .out32 0 _ => ⟨0, [.drain], false⟩
  | _ => ⟨0, [], false⟩

def written (choose : PulseRegs → ConsoleOp → ConsoleOutcome) (str : List (BitVec 8)) : ConsoleSys :=
  ((run (onDevice PulseRegs.answer choose) 2 (uliteConsoleWrite str) sending).getD ((), sending)).2

theorem exec_written {choose : PulseRegs → ConsoleOp → ConsoleOutcome} {str : List (BitVec 8)}
    (h : run (onDevice PulseRegs.answer choose) 2 (uliteConsoleWrite str) sending =
      some ((), written choose str)) :
    Exec (withMemory pulseCore) (uliteConsoleWrite str) sending () (written choose str) :=
  (onDevice_refines PulseRegs.answer choose).exec _ ((watch_sound _ _).1 _ _ h)

/-- Two bytes are in the FIFO after a string of one. -/
theorem console_continues_letter : Continues (written still [0x42]).dev := by
  obtain ⟨off, on, hlog, hiff⟩ := console_continues_iff [0x42] sending (written still [0x42]) rfl
    (by decide) rfl (exec_written rfl)
  have hlog' : (written still [0x42]).dev.controls = [(0, 1), (controlIe, 2)] := rfl
  have hlevels : 1 = off ∧ 2 = on := by simpa [sending] using hlog'.symm.trans hlog
  exact hiff.mpr (.inr (by omega))

/-- The interrupt is lost when the last byte leaves the FIFO while the interrupt is disabled. -/
theorem console_stalls : ¬∀ (str : List (BitVec 8)) (s t : ConsoleSys), s.dev.uart.ie = true →
    ¬uartCircEmpty s.mem.xmit → s.dev.uart.tx ≠ [] → s.dev.pulsed = false →
      Exec (withMemory pulseCore) (uliteConsoleWrite str) s () t → Continues t.dev := by
  intro h
  have hcontinues := h [] sending (written drains []) rfl (by decide) (by decide) rfl
    (exec_written rfl)
  exact absurd hcontinues.live (by decide)

end Runs

end PynqPrio.Uart
