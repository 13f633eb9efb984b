import PynqPrio.UartTransmit

/-!
# The loop of the interrupt handler

`ulite_isr` goes on as long as an iteration finds something to do. The device has finitely
many bytes and line errors to come, and logs what the handler reads; what the tty gets is
compared with the log.
-/
namespace PynqPrio.Uart
open Programs Programs.Driver Programs.Prog

/-! Flags of the line settings. -/
def inpck : BitVec 32 := 0x10
def ignpar : BitVec 32 := 0x04
def cread : BitVec 32 := 0x80

structure Ktermios where
  iflag : BitVec 32
  cflag : BitVec 32

/-- The part of `ulite_set_termios` that sets the masks. -/
def uliteSetTermios (termios : Ktermios) : Ulite Unit := do
  modify fun d => { d with readStatusMask := statusRxvalid ||| statusOverrun ||| statusTxfull }
  onlyIf (termios.iflag &&& inpck ≠ 0) <|
    modify fun d => { d with readStatusMask := d.readStatusMask ||| statusParity ||| statusFrame }
  modify fun d => { d with ignoreStatusMask := 0 }
  onlyIf (termios.iflag &&& ignpar ≠ 0) <| modify fun d =>
    { d with ignoreStatusMask := d.ignoreStatusMask ||| statusParity ||| statusFrame ||| statusOverrun }
  -- without `CREAD` no byte is forwarded
  onlyIf (termios.cflag &&& cread = 0) <| modify fun d =>
    { d with ignoreStatusMask := d.ignoreStatusMask ||| statusRxvalid ||| statusParity |||
        statusFrame ||| statusOverrun }

def uliteStopRx : Ulite Unit := modify fun d => { d with
  ignoreStatusMask := statusRxvalid ||| statusParity ||| statusFrame ||| statusOverrun }

/-- The bits of `STATUS` that `ulite_receive` works on. -/
def statusReceive : BitVec 32 := statusRxvalid ||| statusOverrun ||| statusFrame

section Device

inductive Access where
  | status (stat : BitVec 32)
  | rx (b : Option (BitVec 8))
  deriving DecidableEq

/-- The registers, the number of bytes and line errors that are to come, the bytes that the
receiver has accepted so far, and the reads. -/
structure FiniteRegs where
  uart : UartRegs
  toCome : ℕ
  accepted : List (BitVec 8)
  log : List Access
  deriving DecidableEq

/-- What an activity takes of what is to come. -/
def Activity.cost : Activity → ℕ
  | .drain => 0
  | .arrive _ | .overrun | .frame | .parity => 1

def Activity.costs : List Activity → ℕ
  | [] => 0
  | a :: l => a.cost + costs l

namespace FiniteRegs

def act (d : FiniteRegs) (a : Activity) : FiniteRegs where
  uart := d.uart.act a
  toCome := d.toCome - a.cost
  accepted := match a with
    | .arrive b => if d.uart.rxFull = true then d.accepted else d.accepted ++ [b]
    | .drain | .overrun | .frame | .parity => d.accepted
  log := d.log

def acts (d : FiniteRegs) (l : List Activity) : FiniteRegs := l.foldl act d

/-- The activities do not take more than is to come. -/
def Affords (d : FiniteRegs) (l : List Activity) : Prop := Activity.costs l ≤ d.toCome

instance (d : FiniteRegs) (l : List Activity) : Decidable (d.Affords l) :=
  inferInstanceAs (Decidable (_ ≤ _))

def read (d : FiniteRegs) (stale : BitVec 32) (offset : ℕ) : BitVec 32 × FiniteRegs :=
  ((d.uart.read stale offset).1, { d with
    uart := (d.uart.read stale offset).2
    log := d.log ++
      if offset = uliteStatus then [.status d.uart.status]
      else if offset = uliteRx then [.rx d.uart.rx.head?]
      else [] })

def write (d : FiniteRegs) (val : BitVec 32) (offset : ℕ) : FiniteRegs :=
  { d with uart := d.uart.write val offset }

/-- The handler calls no function of the kernel that has an answer. -/
def answer (d : FiniteRegs) (k : Outcome) (p : Port) : Option (Port.Res p × FiniteRegs) :=
  if d.Affords k.acts then
    match p with
    | .in32 offset => some ((d.read k.stale offset).1, (d.read k.stale offset).2.acts k.acts)
    | .out32 val offset => some ((), (d.write val offset).acts k.acts)
    | _ => none
  else none

/-- What the receiver has or may still get. -/
def weight (d : FiniteRegs) : ℕ :=
  d.uart.rx.length + d.uart.overrun.toNat + d.uart.frame.toNat + d.toCome

end FiniteRegs

/-- The core with finitely many events to come. -/
def finiteCore : Machine Port Port.Res FiniteRegs := ofAnswer FiniteRegs.answer

abbrev FiniteSys := Config UartMem Event FiniteRegs

variable {d e f : FiniteRegs} {l : List Activity}

/-- The device goes from one state to another by itself. -/
structure Goes (d e : FiniteRegs) : Prop where
  log : e.log = d.log
  received : ∃ new, e.accepted = d.accepted ++ new ∧ e.uart.rx = d.uart.rx ++ new
  written : e.uart.written = d.uart.written
  weight : e.weight ≤ d.weight

theorem Goes.refl (d : FiniteRegs) : Goes d d :=
  ⟨rfl, ⟨[], by simp, by simp⟩, rfl, Nat.le_refl _⟩

theorem Goes.trans (h : Goes d e) (h' : Goes e f) : Goes d f := by
  obtain ⟨new, haccepted, hrx⟩ := h.received
  obtain ⟨new', haccepted', hrx'⟩ := h'.received
  refine ⟨h'.log.trans h.log, ⟨new ++ new', ?_, ?_⟩, h'.written.trans h.written,
    h'.weight.trans h.weight⟩
  · rw [haccepted', haccepted, List.append_assoc]
  · rw [hrx', hrx, List.append_assoc]

/-- A byte or an error takes one of those that are to come. -/
theorem goes_act (a : Activity) (h : a.cost ≤ d.toCome) : Goes d (d.act a) := by
  have hsame : ∀ u : UartRegs, u.rx = d.uart.rx → u.written = d.uart.written →
      u.overrun.toNat + u.frame.toNat ≤ d.uart.overrun.toNat + d.uart.frame.toNat + a.cost →
      Goes d ⟨u, d.toCome - a.cost, d.accepted, d.log⟩ := by
    intro u hrx hwritten hbits
    refine ⟨rfl, ⟨[], by simp, by simp [hrx]⟩, hwritten, ?_⟩
    simp only [FiniteRegs.weight, hrx]
    omega
  have hbit : ∀ b : Bool, true.toNat ≤ b.toNat + 1 := by decide
  have hoverrun : (d.uart.setOverrun).overrun.toNat + (d.uart.setOverrun).frame.toNat ≤
      d.uart.overrun.toNat + d.uart.frame.toNat + 1 := by
    have hset := hbit d.uart.overrun
    simp only [UartRegs.setOverrun]
    omega
  cases a with
  | drain => exact hsame _ rfl rfl (Nat.le_refl _)
  | arrive b =>
    by_cases hfull : d.uart.rxFull = true
    · simp only [FiniteRegs.act, UartRegs.act, if_pos hfull]
      exact hsame _ rfl rfl hoverrun
    · simp only [FiniteRegs.act, UartRegs.act, if_neg hfull]
      refine ⟨rfl, ⟨[b], rfl, rfl⟩, rfl, ?_⟩
      have hcost : 1 ≤ d.toCome := h
      simp only [FiniteRegs.weight, List.length_append, List.length_singleton, Activity.cost]
      omega
  | overrun => exact hsame _ rfl rfl hoverrun
  | frame =>
    have hset := hbit d.uart.frame
    refine hsame _ rfl rfl ?_
    simp only [UartRegs.act, UartRegs.setFrame, Activity.cost]
    omega
  | parity => exact hsame _ rfl rfl (Nat.le_succ _)

theorem goes_acts (h : d.Affords l) : Goes d (d.acts l) := by
  induction l generalizing d with
  | nil => exact .refl d
  | cons a l ih =>
    rw [FiniteRegs.Affords, Activity.costs] at h
    have hrest : (d.act a).Affords l := by
      change Activity.costs l ≤ d.toCome - a.cost
      omega
    exact (goes_act a (by omega)).trans (ih hrest)

end Device

section Accesses

variable {s t : FiniteSys} {x : BitVec 32}

/-- A read of `STATUS` clears the errors. -/
theorem exec_finiteStatus (h : Exec (withMemory finiteCore) (uartIn32 uliteStatus) s x t) :
    x = s.dev.uart.status ∧ ∃ e, t = s.withDev e ∧
      Goes { s.dev with
        uart := s.dev.uart.clearErrors
        log := s.dev.log ++ [.status s.dev.uart.status] } e := by
  obtain ⟨e, ⟨k, hk⟩, rfl⟩ := (exec_port (R := Port.Res) (.in32 uliteStatus) x).mp h
  rw [FiniteRegs.answer] at hk
  split at hk
  · obtain ⟨rfl, rfl⟩ := Prod.mk.inj (Option.some.inj hk)
    exact ⟨rfl, _, rfl, goes_acts (by assumption)⟩
  · cases hk

/-- A read of `RX` takes the first byte of the receiver. -/
theorem exec_finiteRx {b : BitVec 8} {rest : List (BitVec 8)} (hrx : s.dev.uart.rx = b :: rest)
    (h : Exec (withMemory finiteCore) (uartIn32 uliteRx) s x t) :
    x.setWidth 8 = b ∧ ∃ e, t = s.withDev e ∧
      Goes { s.dev with
        uart := { s.dev.uart with rx := rest }
        log := s.dev.log ++ [.rx (some b)] } e := by
  obtain ⟨e, ⟨k, hk⟩, rfl⟩ := (exec_port (R := Port.Res) (.in32 uliteRx) x).mp h
  rw [FiniteRegs.answer] at hk
  split at hk
  · obtain ⟨rfl, rfl⟩ := Prod.mk.inj (Option.some.inj hk)
    have hread : s.dev.read k.stale uliteRx = (b.setWidth 32, { s.dev with
        uart := { s.dev.uart with rx := rest }
        log := s.dev.log ++ [.rx (some b)] }) := by
      rw [FiniteRegs.read, UartRegs.read, if_pos rfl, hrx]
      rfl
    have haffords : (s.dev.read k.stale uliteRx).2.Affords k.acts := by assumption
    rw [hread] at haffords ⊢
    exact ⟨BitVec.setWidth_setWidth_of_le b (by decide), _, rfl, goes_acts haffords⟩
  · cases hk

theorem exec_finiteTx {b : BitVec 8} {y : Unit}
    (h : Exec (withMemory finiteCore) (uartOut32 (b.setWidth 32) uliteTx) s y t) :
    ∃ e, t = s.withDev e ∧ Goes { s.dev with uart := s.dev.uart.send b } e := by
  obtain ⟨e, ⟨k, hk⟩, rfl⟩ := (exec_port (R := Port.Res) (.out32 _ uliteTx) y).mp h
  rw [FiniteRegs.answer] at hk
  split at hk
  · obtain ⟨-, rfl⟩ := Prod.mk.inj (Option.some.inj hk)
    have haffords : (s.dev.write (b.setWidth 32) uliteTx).Affords k.acts := by assumption
    rw [FiniteRegs.write, write_tx] at haffords ⊢
    exact ⟨_, rfl, goes_acts haffords⟩
  · cases hk

end Accesses

section Inserted

structure Exchange where
  stat : BitVec 32
  byte : Option (BitVec 8)

def Exchange.accesses (w : Exchange) : List Access :=
  .status w.stat :: (w.byte.map fun b => Access.rx (some b)).toList

/-- A bit of `STATUS` gets through the masks. -/
def LetThrough (readMask ignoreMask stat bit : BitVec 32) : Prop :=
  stat &&& bit ≠ 0 ∧ readMask &&& bit ≠ 0 ∧ ignoreMask &&& bit = 0

instance (readMask ignoreMask stat bit : BitVec 32) :
    Decidable (LetThrough readMask ignoreMask stat bit) :=
  inferInstanceAs (Decidable (_ ∧ _ ∧ _))

/-- The byte gets through, unless it has a parity error that is ignored. -/
def ByteLetThrough (readMask ignoreMask stat : BitVec 32) : Prop :=
  LetThrough readMask ignoreMask stat statusRxvalid ∧
    ¬(stat &&& statusParity ≠ 0 ∧ ignoreMask &&& statusParity ≠ 0)

instance (readMask ignoreMask stat : BitVec 32) :
    Decidable (ByteLetThrough readMask ignoreMask stat) :=
  inferInstanceAs (Decidable (_ ∧ ¬_))

/-- What the masks let through of an exchange: the byte, and after it the markers. -/
def letThrough (readMask ignoreMask : BitVec 32) (w : Exchange) : List (BitVec 8 × TtyFlag) :=
  (if ByteLetThrough readMask ignoreMask w.stat then
    w.byte.toList.map fun b => (b,
      if w.stat &&& statusParity ≠ 0 ∧ readMask &&& statusParity ≠ 0 then TtyFlag.parity
      else TtyFlag.normal)
  else []) ++
  (if LetThrough readMask ignoreMask w.stat statusFrame then [(0, TtyFlag.frame)] else []) ++
  (if LetThrough readMask ignoreMask w.stat statusOverrun then [(0, TtyFlag.overrun)] else [])

/-- The characters that a trace hands to the tty. -/
def flips (l : List Event) : List (BitVec 8 × TtyFlag) :=
  l.filterMap fun
    | .insertFlipChar ch flag => some (ch, flag)
    | _ => none

/-- How often a trace has them pushed. -/
def pushes (l : List Event) : ℕ := l.count .flipBufferPush

/-- A mask of one bit. -/
theorem and_bit_ne_zero {bit : BitVec 32} {i : ℕ} (hi : i < 32) (hbit : bit = BitVec.twoPow 32 i)
    (x : BitVec 32) : x &&& bit ≠ 0 ↔ x.getLsbD i = true := by
  subst hbit
  rw [BitVec.and_twoPow]
  cases hset : x.getLsbD i with
  | false => simp
  | true =>
    have hone : BitVec.twoPow 32 i ≠ 0 := by
      intro hzero
      have hbit : (BitVec.twoPow 32 i).getLsbD i = true := by
        simp [hi]
      rw [hzero] at hbit
      simp at hbit
    simpa using hone

theorem and_rxvalid (x : BitVec 32) : x &&& statusRxvalid ≠ 0 ↔ x.getLsbD 0 = true :=
  and_bit_ne_zero (by decide) (by decide) x

theorem and_parity (x : BitVec 32) : x &&& statusParity ≠ 0 ↔ x.getLsbD 7 = true :=
  and_bit_ne_zero (by decide) (by decide) x

/-- What is left of `STATUS` in `ulite_receive`. -/
def maskedStatus (readMask ignoreMask stat : BitVec 32) : BitVec 32 :=
  (if stat &&& ignoreMask &&& statusParity ≠ 0 then stat &&& ~~~statusRxvalid else stat) &&&
    readMask &&& ~~~ignoreMask

/-- A bit of it that is not `RXVALID`. -/
theorem masked_marker {bit : BitVec 32} {i : ℕ} (hi : i < 32) (hpos : i ≠ 0)
    (hbit : bit = BitVec.twoPow 32 i) (readMask ignoreMask stat : BitVec 32) :
    maskedStatus readMask ignoreMask stat &&& bit ≠ 0 ↔
      LetThrough readMask ignoreMask stat bit := by
  have hclear : statusRxvalid[i] = false := by
    have htwo : statusRxvalid = BitVec.twoPow 32 0 := by decide
    simp [htwo, hpos]
  rw [LetThrough, ← not_ne_iff (a := ignoreMask &&& bit)]
  simp only [and_bit_ne_zero hi hbit, maskedStatus]
  split <;> simp [hclear, hi, and_assoc]

theorem masked_rxvalid (readMask ignoreMask stat : BitVec 32) :
    maskedStatus readMask ignoreMask stat &&& statusRxvalid ≠ 0 ↔
      ByteLetThrough readMask ignoreMask stat := by
  have hset : statusRxvalid.getLsbD 0 = true := by decide
  rw [ByteLetThrough, LetThrough, ← not_ne_iff (a := ignoreMask &&& statusRxvalid)]
  simp only [and_rxvalid, and_parity, maskedStatus]
  split
  · rename_i hparity
    simp_all
  · rename_i hparity
    simp_all [and_assoc]

theorem masked_frame (readMask ignoreMask stat : BitVec 32) :
    maskedStatus readMask ignoreMask stat &&& statusFrame ≠ 0 ↔
      LetThrough readMask ignoreMask stat statusFrame :=
  masked_marker (i := 6) (by decide) (by decide) (by decide) readMask ignoreMask stat

theorem masked_overrun (readMask ignoreMask stat : BitVec 32) :
    maskedStatus readMask ignoreMask stat &&& statusOverrun ≠ 0 ↔
      LetThrough readMask ignoreMask stat statusOverrun :=
  masked_marker (i := 5) (by decide) (by decide) (by decide) readMask ignoreMask stat

/-- The flag of the byte. -/
theorem masked_parity (readMask ignoreMask stat : BitVec 32) :
    (if stat &&& ignoreMask &&& statusParity ≠ 0 then stat &&& ~~~statusRxvalid else stat) &&&
      readMask &&& statusParity ≠ 0 ↔
    stat &&& statusParity ≠ 0 ∧ readMask &&& statusParity ≠ 0 := by
  have hclear : statusRxvalid[7] = false := by decide
  simp only [and_parity]
  split <;> simp [hclear]

/-- `ulite_receive` hands over what the masks let through. -/
theorem exec_insertLetThrough {δ : Type} {dev : Machine Port Port.Res δ} {s t : Config UartMem Event δ}
    {stat : BitVec 32} {ch : BitVec 8} {x : Unit}
    (h : Exec (withMemory dev) (insertChars stat ch) s x t) :
    t.mem = s.mem ∧ t.dev = s.dev ∧ pushes t.trace = pushes s.trace ∧
      flips t.trace = flips s.trace ++ letThrough s.mem.readStatusMask s.mem.ignoreStatusMask
        ⟨stat, if stat &&& statusRxvalid ≠ 0 then some ch else none⟩ := by
  rw [insertChars, exec_get_bind] at h
  simp only [exec_bind_iff, exec_onlyIf_note] at h
  obtain ⟨_, _, rfl, _, _, rfl, rfl⟩ := h
  have hrxvalid := masked_rxvalid s.mem.readStatusMask s.mem.ignoreStatusMask stat
  have hframe := masked_frame s.mem.readStatusMask s.mem.ignoreStatusMask stat
  have hoverrun := masked_overrun s.mem.readStatusMask s.mem.ignoreStatusMask stat
  have hparity := masked_parity s.mem.readStatusMask s.mem.ignoreStatusMask stat
  rw [maskedStatus] at hrxvalid hframe hoverrun
  refine ⟨rfl, rfl, ?_, ?_⟩
  · simp only [pushes, List.count_append]
    split_ifs <;> rfl
  · simp only [hrxvalid, hframe, hoverrun, hparity, flips, List.filterMap_append, letThrough,
      List.append_assoc]
    congr 2
    · by_cases hthrough : ByteLetThrough s.mem.readStatusMask s.mem.ignoreStatusMask stat
      · rw [if_pos hthrough, if_pos hthrough, if_pos hthrough.1.1]
        rfl
      · rw [if_neg hthrough, if_neg hthrough]
        rfl
    · congr 1 <;> split <;> rfl

/-! The masks that the driver sets. -/

theorem exec_setTermios {δ : Type} {dev : Machine Port Port.Res δ} {s t : Config UartMem Event δ}
    {termios : Ktermios} {x : Unit} (h : Exec (withMemory dev) (uliteSetTermios termios) s x t) :
    t.mem.readStatusMask = (if termios.iflag &&& inpck ≠ 0
      then statusRxvalid ||| statusOverrun ||| statusTxfull ||| statusParity ||| statusFrame
      else statusRxvalid ||| statusOverrun ||| statusTxfull) ∧
    t.mem.ignoreStatusMask = (if termios.cflag &&& cread = 0
      then statusRxvalid ||| statusParity ||| statusFrame ||| statusOverrun
      else if termios.iflag &&& ignpar ≠ 0 then statusParity ||| statusFrame ||| statusOverrun
      else 0) := by
  simp only [uliteSetTermios, exec_bind_iff, exec_modify, exec_onlyIf_modify] at h
  obtain ⟨_, _, rfl, _, _, rfl, _, _, rfl, _, _, rfl, rfl⟩ := h
  have hboth : (0 : BitVec 32) ||| statusParity ||| statusFrame ||| statusOverrun |||
        statusRxvalid ||| statusParity ||| statusFrame ||| statusOverrun =
      statusRxvalid ||| statusParity ||| statusFrame ||| statusOverrun := by
    decide
  have hcread : (0 : BitVec 32) ||| statusRxvalid ||| statusParity ||| statusFrame ||| statusOverrun =
      statusRxvalid ||| statusParity ||| statusFrame ||| statusOverrun := by
    decide
  have hignpar : (0 : BitVec 32) ||| statusParity ||| statusFrame ||| statusOverrun =
      statusParity ||| statusFrame ||| statusOverrun := by
    decide
  simp only [Config.withMem_mem]
  constructor
  · split_ifs <;> rfl
  · split_ifs <;> first | exact hboth | exact hcread | exact hignpar | rfl

theorem setTermios_read {δ : Type} {dev : Machine Port Port.Res δ} {s t : Config UartMem Event δ}
    {termios : Ktermios} {x : Unit} (h : Exec (withMemory dev) (uliteSetTermios termios) s x t) :
    t.mem.readStatusMask &&& statusRxvalid ≠ 0 ∧
      (t.mem.readStatusMask &&& statusFrame ≠ 0 ↔ termios.iflag &&& inpck ≠ 0) ∧
      t.mem.readStatusMask &&& statusOverrun ≠ 0 := by
  rw [(exec_setTermios h).1]
  by_cases hinpck : termios.iflag &&& inpck ≠ 0
  · rw [if_pos hinpck]
    exact ⟨by decide, iff_of_true (by decide) hinpck, by decide⟩
  · rw [if_neg hinpck]
    exact ⟨by decide, iff_of_false (by decide) hinpck, by decide⟩

theorem setTermios_ignore {δ : Type} {dev : Machine Port Port.Res δ} {s t : Config UartMem Event δ}
    {termios : Ktermios} {x : Unit} (h : Exec (withMemory dev) (uliteSetTermios termios) s x t) :
    (t.mem.ignoreStatusMask &&& statusRxvalid = 0 ↔ termios.cflag &&& cread ≠ 0) ∧
      ∀ bit, bit = statusParity ∨ bit = statusFrame ∨ bit = statusOverrun →
        (t.mem.ignoreStatusMask &&& bit = 0 ↔
          termios.cflag &&& cread ≠ 0 ∧ termios.iflag &&& ignpar = 0) := by
  rw [(exec_setTermios h).2]
  by_cases hcread : termios.cflag &&& cread = 0
  · rw [if_pos hcread]
    refine ⟨iff_of_false (by decide) (not_not.mpr hcread), fun bit hbit => ?_⟩
    refine iff_of_false ?_ fun h => h.1 hcread
    rcases hbit with rfl | rfl | rfl <;> decide
  · rw [if_neg hcread]
    by_cases hignpar : termios.iflag &&& ignpar ≠ 0
    · rw [if_pos hignpar]
      refine ⟨iff_of_true (by decide) hcread, fun bit hbit => ?_⟩
      refine iff_of_false ?_ fun h => hignpar h.2
      rcases hbit with rfl | rfl | rfl <;> decide
    · rw [if_neg hignpar]
      refine ⟨iff_of_true (by decide) hcread, fun bit _ => ?_⟩
      exact iff_of_true BitVec.zero_and ⟨hcread, not_not.mp hignpar⟩

/-- After `ulite_set_termios` a byte gets through with `CREAD`, unless it has a parity error and
these are ignored; and so do the markers, that of a framing error only with `INPCK`. -/
theorem letThrough_setTermios {δ : Type} {dev : Machine Port Port.Res δ}
    {s t : Config UartMem Event δ} {termios : Ktermios} {x : Unit} (stat : BitVec 32)
    (h : Exec (withMemory dev) (uliteSetTermios termios) s x t) :
    (ByteLetThrough t.mem.readStatusMask t.mem.ignoreStatusMask stat ↔
      stat &&& statusRxvalid ≠ 0 ∧ termios.cflag &&& cread ≠ 0 ∧
        ¬(stat &&& statusParity ≠ 0 ∧ termios.iflag &&& ignpar ≠ 0)) ∧
    (LetThrough t.mem.readStatusMask t.mem.ignoreStatusMask stat statusFrame ↔
      stat &&& statusFrame ≠ 0 ∧ termios.iflag &&& inpck ≠ 0 ∧ termios.cflag &&& cread ≠ 0 ∧
        termios.iflag &&& ignpar = 0) ∧
    (LetThrough t.mem.readStatusMask t.mem.ignoreStatusMask stat statusOverrun ↔
      stat &&& statusOverrun ≠ 0 ∧ termios.cflag &&& cread ≠ 0 ∧ termios.iflag &&& ignpar = 0) := by
  obtain ⟨hrxvalid, hframe, hoverrun⟩ := setTermios_read h
  obtain ⟨hbyte, hmarkers⟩ := setTermios_ignore h
  have hparity := hmarkers statusParity (.inl rfl)
  refine ⟨?_, ?_, ?_⟩
  · constructor
    · rintro ⟨⟨hstat, -, hignore⟩, hkept⟩
      exact ⟨hstat, hbyte.mp hignore, fun h => hkept ⟨h.1, fun hzero => h.2 (hparity.mp hzero).2⟩⟩
    · rintro ⟨hstat, hcread, hkept⟩
      exact ⟨⟨hstat, hrxvalid, hbyte.mpr hcread⟩,
        fun h => hkept ⟨h.1, fun hzero => h.2 (hparity.mpr ⟨hcread, hzero⟩)⟩⟩
  · rw [LetThrough, hframe, hmarkers statusFrame (.inr (.inl rfl))]
  · rw [LetThrough, hmarkers statusOverrun (.inr (.inr rfl))]
    exact and_congr_right fun _ => and_iff_right hoverrun

/-- After `ulite_stop_rx` nothing does. -/
theorem letThrough_stopRx {δ : Type} {dev : Machine Port Port.Res δ} {s t : Config UartMem Event δ}
    {x : Unit} (w : Exchange) (h : Exec (withMemory dev) uliteStopRx s x t) :
    letThrough t.mem.readStatusMask t.mem.ignoreStatusMask w = [] := by
  rw [uliteStopRx, exec_modify] at h
  subst h
  have hbits : (statusRxvalid ||| statusParity ||| statusFrame ||| statusOverrun) &&& statusRxvalid ≠ 0 ∧
      (statusRxvalid ||| statusParity ||| statusFrame ||| statusOverrun) &&& statusFrame ≠ 0 ∧
      (statusRxvalid ||| statusParity ||| statusFrame ||| statusOverrun) &&& statusOverrun ≠ 0 := by
    decide
  rw [letThrough, if_neg fun h => hbits.1 h.1.2.2, if_neg fun h => hbits.2.1 h.2.2,
    if_neg fun h => hbits.2.2 h.2.2]
  rfl

end Inserted

section Iteration

variable {s t u v : FiniteSys} {stat : BitVec 32} {r : Bool} {ch : BitVec 8}

/-- What the receiver leaves alone. -/
def txView (d : UartMem) : Circular (BitVec 8) × BitVec 8 × Bool × BitVec 32 × BitVec 32 :=
  (d.xmit, d.xChar, d.txStopped, d.readStatusMask, d.ignoreStatusMask)

/-- A call of `ulite_receive` with a byte taken from the receiver, or none. -/
structure ReceivedByte (stat : BitVec 32) (s : FiniteSys) (b : Option (BitVec 8)) (t : FiniteSys) :
    Prop where
  valid : b.isSome = true ↔ stat &&& statusRxvalid ≠ 0
  log : t.dev.log = s.dev.log ++ (b.map fun b => Access.rx (some b)).toList
  received : ∃ new, t.dev.accepted = s.dev.accepted ++ new ∧
    s.dev.uart.rx ++ new = b.toList ++ t.dev.uart.rx
  written : t.dev.uart.written = s.dev.uart.written
  weight : t.dev.weight + b.toList.length ≤ s.dev.weight
  mem : txView t.mem = txView s.mem
  icount : t.mem.icount.rx = s.mem.icount.rx + BitVec.ofNat 32 b.toList.length
  delivered : flips t.trace = flips s.trace ++
    letThrough s.mem.readStatusMask s.mem.ignoreStatusMask ⟨stat, b⟩
  pushes : pushes t.trace = pushes s.trace

/-- The first part of `ulite_receive` only reads a receiver that is not empty. -/
theorem exec_receiveByte (hrx : stat &&& statusRxvalid ≠ 0 → s.dev.uart.rx ≠ [])
    (h : Exec (withMemory finiteCore) (receiveChar stat) s ch t) :
    ∃ b : Option (BitVec 8), b = (if stat &&& statusRxvalid ≠ 0 then some ch else none) ∧
      t.dev.log = s.dev.log ++ (b.map fun b => Access.rx (some b)).toList ∧
      (∃ new, t.dev.accepted = s.dev.accepted ++ new ∧
        s.dev.uart.rx ++ new = b.toList ++ t.dev.uart.rx) ∧
      t.dev.uart.written = s.dev.uart.written ∧
      t.dev.weight + b.toList.length ≤ s.dev.weight ∧ txView t.mem = txView s.mem ∧
      t.mem.icount.rx = s.mem.icount.rx + BitVec.ofNat 32 b.toList.length ∧ t.trace = s.trace := by
  simp only [receiveChar, exec_ite, exec_bind_iff, exec_modify, exec_onlyIf_modify, exec_pure] at h
  obtain ⟨hvalid, _, _, rfl, x, u, hread, _, _, rfl, rfl, rfl⟩ | ⟨hvalid, rfl, rfl⟩ := h
  · obtain ⟨b, rest, hbytes⟩ := List.exists_cons_of_ne_nil (hrx hvalid)
    obtain ⟨hbyte, e, rfl, hgoes⟩ := exec_finiteRx (by exact hbytes) hread
    obtain ⟨new, haccepted, hnew⟩ := hgoes.received
    refine ⟨some b, ?_, hgoes.log, ⟨new, haccepted, ?_⟩, hgoes.written, ?_, ?_, ?_, rfl⟩
    · rw [if_pos hvalid, hbyte]
    · rw [hbytes]
      exact congrArg (b :: ·) hnew.symm
    · have hweight := hgoes.weight
      simp only [FiniteRegs.weight, hbytes, List.length_cons, Config.withMem_dev, Config.withDev_dev,
        Option.toList_some, List.length_nil] at hweight ⊢
      omega
    · simp only [Config.withMem_mem, Config.withDev_mem]
      split <;> rfl
    · simp only [Config.withMem_mem, Config.withDev_mem]
      split <;> rfl
  · refine ⟨none, (if_neg hvalid).symm, by simp, ⟨[], by simp, by simp⟩, rfl, Nat.le_refl _, rfl, ?_, rfl⟩
    simp

/-- Nothing gets through of a quiet `STATUS`. -/
theorem letThrough_quiet (readMask ignoreMask : BitVec 32) (hquiet : stat &&& statusReceive = 0) :
    letThrough readMask ignoreMask ⟨stat, none⟩ = [] ∧ stat &&& statusRxvalid = 0 := by
  have hbits : statusReceive &&& statusRxvalid = statusRxvalid ∧
      statusReceive &&& statusFrame = statusFrame ∧
      statusReceive &&& statusOverrun = statusOverrun := by decide
  obtain ⟨hrxvalid, hframe, hoverrun⟩ := hbits
  have hnone : ∀ bit, statusReceive &&& bit = bit → stat &&& bit = 0 := by
    intro bit hbit
    rw [← hbit, ← BitVec.and_assoc, hquiet]
    exact BitVec.zero_and
  refine ⟨?_, hnone _ hrxvalid⟩
  rw [letThrough, if_neg fun h => h.1.1 (hnone _ hrxvalid), if_neg fun h => h.1 (hnone _ hframe),
    if_neg fun h => h.1 (hnone _ hoverrun)]
  rfl

theorem countErrors_keeps {x : Unit} (h : Exec (withMemory finiteCore) (countErrors stat) s x t) :
    txView t.mem = txView s.mem ∧ t.mem.icount.rx = s.mem.icount.rx ∧ t.dev = s.dev ∧
      t.trace = s.trace := by
  simp only [countErrors, exec_bind_iff, exec_onlyIf_modify] at h
  obtain ⟨_, _, rfl, rfl⟩ := h
  refine ⟨?_, ?_, rfl, rfl⟩
  · simp only [Config.withMem_mem]
    split <;> split <;> rfl
  · simp only [Config.withMem_mem]
    split <;> split <;> rfl

/-- A call of `ulite_receive`. -/
theorem receive_finite (hrx : stat &&& statusRxvalid ≠ 0 → s.dev.uart.rx ≠ [])
    (h : Exec (withMemory finiteCore) (uliteReceive stat) s r t) :
    (r = true ↔ stat &&& statusReceive ≠ 0) ∧ ∃ b, ReceivedByte stat s b t := by
  rw [uliteReceive, exec_ite] at h
  simp only [exec_bind_iff, exec_pure] at h
  obtain ⟨hquiet, rfl, hsame⟩ | ⟨hbusy, ch, u, hchar, _, v, hcount, _, w, hinsert, rfl, hsame⟩ := h
  · obtain ⟨hnothing, hnone⟩ := letThrough_quiet s.mem.readStatusMask s.mem.ignoreStatusMask hquiet
    subst hsame
    refine ⟨iff_of_false Bool.false_ne_true (not_not.mpr hquiet), none, ?_⟩
    constructor
    · exact iff_of_false Bool.false_ne_true (not_not.mpr hnone)
    · exact (List.append_nil _).symm
    · exact ⟨[], (List.append_nil _).symm, List.append_nil _⟩
    · rfl
    · exact Nat.le_refl _
    · rfl
    · exact (BitVec.add_zero _).symm
    · rw [hnothing, List.append_nil]
    · rfl
  · subst hsame
    obtain ⟨b, hb, hlog, hreceived, hwritten, hweight, hmem, hicount, htrace⟩ :=
      exec_receiveByte hrx hchar
    obtain ⟨hkeep, hrxCount, hdev, htrace'⟩ := countErrors_keeps hcount
    obtain ⟨hmem', hdev', hpushes, hflips⟩ := exec_insertLetThrough hinsert
    have hdevice : t.dev = u.dev := hdev'.trans hdev
    have hview : txView v.mem = txView s.mem := hkeep.trans hmem
    have hread : v.mem.readStatusMask = s.mem.readStatusMask :=
      congrArg (fun view => view.2.2.2.1) hview
    have hignore : v.mem.ignoreStatusMask = s.mem.ignoreStatusMask :=
      congrArg (fun view => view.2.2.2.2) hview
    refine ⟨iff_of_true rfl hbusy, b, ?_⟩
    constructor
    · rw [hb]
      by_cases hvalid : stat &&& statusRxvalid ≠ 0
      · rw [if_pos hvalid]
        exact iff_of_true rfl hvalid
      · rw [if_neg hvalid]
        exact iff_of_false Bool.false_ne_true hvalid
    · rw [hdevice, hlog]
    · rw [hdevice]
      exact hreceived
    · rw [hdevice, hwritten]
    · rw [hdevice]
      exact hweight
    · rw [hmem', hview]
    · rw [hmem', hrxCount, hicount]
    · rw [hflips, htrace', htrace, hread, hignore, hb]
    · rw [hpushes, htrace', htrace]

/-- The transmitter has nothing to send, or may not send it. -/
def TxResting (d : UartMem) : Prop :=
  d.xChar = 0 ∧ (uartCircEmpty d.xmit ∨ d.txStopped = true)

/-- How much there is to send. -/
def UartMem.txAmount (d : UartMem) : ℕ :=
  d.xmit.count uartXmitSize + if d.xChar = 0 then 0 else 1

structure TransmittedByte (stat : BitVec 32) (s : FiniteSys) (r : Bool) (t : FiniteSys) : Prop where
  log : t.dev.log = s.dev.log
  received : ∃ new, t.dev.accepted = s.dev.accepted ++ new ∧ s.dev.uart.rx ++ new = t.dev.uart.rx
  weight : t.dev.weight ≤ s.dev.weight
  masks : t.mem.readStatusMask = s.mem.readStatusMask ∧ t.mem.ignoreStatusMask = s.mem.ignoreStatusMask
  icount : t.mem.icount.rx = s.mem.icount.rx
  flips : flips t.trace = flips s.trace
  pushes : pushes t.trace = pushes s.trace
  inRange : t.mem.xmit.InRange uartXmitSize
  sent : if r = true then (∃ b, t.dev.uart.written = s.dev.uart.written ++ [b]) ∧
      t.mem.txAmount < s.mem.txAmount
    else t = s ∧ (stat &&& statusTxfull ≠ 0 ∨ TxResting s.mem)

theorem TransmittedByte.idle (h : TransmittedByte stat s false t) :
    stat &&& statusTxfull ≠ 0 ∨ TxResting t.mem := by
  obtain ⟨rfl, hrest⟩ := h.sent
  exact hrest

theorem TransmittedByte.written_le (h : TransmittedByte stat s r t) :
    s.dev.uart.written <+: t.dev.uart.written := by
  cases r with
  | false =>
    obtain ⟨rfl, -⟩ := h.sent
    exact List.prefix_rfl
  | true =>
    obtain ⟨⟨b, hb⟩, -⟩ := h.sent
    rw [hb]
    exact List.prefix_append _ _

theorem TransmittedByte.busy (h : TransmittedByte stat s r t) :
    r = true ↔ t.dev.uart.written ≠ s.dev.uart.written := by
  cases r with
  | false =>
    obtain ⟨rfl, -⟩ := h.sent
    exact iff_of_false Bool.false_ne_true fun hne => hne rfl
  | true =>
    obtain ⟨⟨b, hb⟩, -⟩ := h.sent
    rw [hb]
    exact iff_of_true rfl (by simp)

theorem TransmittedByte.txAmount_lt (h : TransmittedByte stat s r t) (hr : r = true) :
    t.mem.txAmount < s.mem.txAmount := by
  subst hr
  exact h.sent.2

theorem TransmittedByte.txAmount_le (h : TransmittedByte stat s r t) :
    t.mem.txAmount ≤ s.mem.txAmount := by
  cases r with
  | false =>
    obtain ⟨rfl, -⟩ := h.sent
    exact Nat.le_refl _
  | true => exact Nat.le_of_lt h.sent.2

theorem UartRegs.send_written (d : UartRegs) (b : BitVec 8) :
    (d.send b).written = d.written ++ [b] := by
  rw [UartRegs.send]
  split <;> rfl

/-- A byte that is written to `TX` leaves the receiver alone. -/
theorem transmitted_of_goes {b : BitVec 8} {e : FiniteRegs}
    (hgoes : Goes { s.dev with uart := s.dev.uart.send b } e) (hdev : t.dev = e)
    (hmasks : t.mem.readStatusMask = s.mem.readStatusMask ∧
      t.mem.ignoreStatusMask = s.mem.ignoreStatusMask)
    (hicount : t.mem.icount.rx = s.mem.icount.rx) (hflips : flips t.trace = flips s.trace)
    (hpushes : pushes t.trace = pushes s.trace) (hrange : t.mem.xmit.InRange uartXmitSize)
    (hless : t.mem.txAmount < s.mem.txAmount) : TransmittedByte stat s true t := by
  obtain ⟨new, haccepted, hrx⟩ := hgoes.received
  have hsame : (s.dev.uart.send b).rx = s.dev.uart.rx ∧
      ({ s.dev with uart := s.dev.uart.send b } : FiniteRegs).weight = s.dev.weight := by
    rw [FiniteRegs.weight, UartRegs.send]
    split <;> exact ⟨rfl, rfl⟩
  constructor
  · rw [hdev, hgoes.log]
  · rw [hdev]
    exact ⟨new, haccepted, by rw [hrx, hsame.1]⟩
  · rw [hdev, ← hsame.2]
    exact hgoes.weight
  · exact hmasks
  · exact hicount
  · exact hflips
  · exact hpushes
  · exact hrange
  · rw [if_pos rfl, hdev, hgoes.written]
    exact ⟨⟨b, UartRegs.send_written _ b⟩, hless⟩

theorem txAmount_sentXChar {d : UartMem} (hx : d.xChar ≠ 0) :
    d.sentXChar.txAmount < d.txAmount := by
  have hcleared : d.sentXChar.xChar = 0 := rfl
  rw [UartMem.txAmount, UartMem.txAmount, if_neg hx, if_pos hcleared]
  exact Nat.lt_succ_self _

theorem xmit_sentByte (d : UartMem) : d.sentByte.xmit = d.xmit.pop uartXmitSize := by
  rw [UartMem.sentByte, nextTail_eq]
  rfl

theorem txAmount_sentByte {d : UartMem} (hrange : d.xmit.InRange uartXmitSize)
    (hne : ¬uartCircEmpty d.xmit) : d.sentByte.txAmount < d.txAmount := by
  have hcount := Circular.count_pop hrange hne
  rw [UartMem.txAmount, UartMem.txAmount, xmit_sentByte, ← hcount]
  change _ + (if d.xChar = 0 then 0 else 1) < _
  omega

theorem transmit_finite (hrange : s.mem.xmit.InRange uartXmitSize)
    (h : Exec (withMemory finiteCore) (uliteTransmit stat) s r t) : TransmittedByte stat s r t := by
  rw [uliteTransmit, exec_get_bind] at h
  simp only [exec_ite, exec_bind_iff, exec_pure, exec_modify, exec_onlyIf_note, exec_get] at h
  have hidle : t = s → r = false → (stat &&& statusTxfull ≠ 0 ∨ TxResting s.mem) →
      TransmittedByte stat s r t := by
    rintro rfl rfl hrest
    constructor
    · rfl
    · exact ⟨[], (List.append_nil _).symm, List.append_nil _⟩
    · exact Nat.le_refl _
    · exact ⟨rfl, rfl⟩
    · rfl
    · rfl
    · rfl
    · exact hrange
    · exact ⟨rfl, hrest⟩
  obtain ⟨hfull, rfl, hsame⟩ | ⟨-, h⟩ := h
  · exact hidle hsame rfl (.inl hfull)
  obtain ⟨hx, _, u, hout, _, _, rfl, _, _, rfl, rfl, hsame⟩ | ⟨hx, h⟩ := h
  · subst hsame
    obtain ⟨e, rfl, hgoes⟩ := exec_finiteTx hout
    exact transmitted_of_goes hgoes rfl ⟨rfl, rfl⟩ rfl rfl rfl hrange (txAmount_sentXChar hx)
  have hx := not_not.mp hx
  obtain ⟨hidle', rfl, hsame⟩ | ⟨hbusy, _, u, hout, _, _, rfl, _, _, rfl, d, v, ⟨rfl, rfl⟩, _, w,
    rfl, rfl, hsame⟩ := h
  · exact hidle hsame rfl (.inr ⟨hx, hidle'⟩)
  · subst hsame
    obtain ⟨e, rfl, hgoes⟩ := exec_finiteTx hout
    obtain ⟨hne, -⟩ := not_or.mp hbusy
    have hrange' : s.mem.sentByte.xmit.InRange uartXmitSize := by
      rw [xmit_sentByte]
      exact hrange.pop
    refine transmitted_of_goes hgoes rfl ⟨rfl, rfl⟩ rfl ?_ ?_ hrange' (txAmount_sentByte hrange hne)
    · simp only [flips, List.filterMap_append]
      split <;> exact List.append_nil _
    · simp only [pushes, List.count_append]
      split <;> rfl

/-- What is left to do for the handler. -/
def left (s : FiniteSys) : ℕ := s.dev.weight + s.mem.txAmount

structure Iterated (s : FiniteSys) (r : Bool) (t : FiniteSys) (w : Exchange) : Prop where
  valid : w.byte.isSome = true ↔ w.stat &&& statusRxvalid ≠ 0
  log : t.dev.log = s.dev.log ++ w.accesses
  received : ∃ new, t.dev.accepted = s.dev.accepted ++ new ∧
    s.dev.uart.rx ++ new = w.byte.toList ++ t.dev.uart.rx
  masks : t.mem.readStatusMask = s.mem.readStatusMask ∧ t.mem.ignoreStatusMask = s.mem.ignoreStatusMask
  inRange : t.mem.xmit.InRange uartXmitSize
  icount : t.mem.icount.rx = s.mem.icount.rx + BitVec.ofNat 32 w.byte.toList.length
  delivered : flips t.trace = flips s.trace ++
    letThrough s.mem.readStatusMask s.mem.ignoreStatusMask w
  pushes : pushes t.trace = pushes s.trace
  written : s.dev.uart.written <+: t.dev.uart.written
  busy : r = true ↔ w.stat &&& statusReceive ≠ 0 ∨ t.dev.uart.written ≠ s.dev.uart.written
  rest : r = false → w.stat &&& statusTxfull ≠ 0 ∨ TxResting t.mem
  less : r = true → left t < left s

theorem status_rxvalid (d : UartRegs) : d.status &&& statusRxvalid ≠ 0 ↔ d.rx ≠ [] := by
  have hbit : ∀ a b c e f g h i : Bool,
      statusWord a b c e f g h i &&& statusRxvalid ≠ 0 ↔ a = true := by decide
  rw [UartRegs.status, hbit]
  simp

/-- What a receiving call leaves, and what `STATUS` has cleared. -/
theorem received_less {d e : FiniteRegs} {b : Option (BitVec 8)}
    (hvalid : b.isSome = true ↔ d.uart.status &&& statusRxvalid ≠ 0)
    (hweight : e.weight + b.toList.length ≤ d.uart.rx.length + d.toCome) :
    e.weight ≤ d.weight ∧ (d.uart.status &&& statusReceive ≠ 0 → e.weight < d.weight) := by
  have hbefore : d.weight = d.uart.rx.length + d.uart.overrun.toNat + d.uart.frame.toNat + d.toCome :=
    rfl
  refine ⟨by omega, fun hbusy => ?_⟩
  cases hoverrun : d.uart.overrun with
  | true =>
    rw [hoverrun, Bool.toNat_true] at hbefore
    omega
  | false =>
    cases hframe : d.uart.frame with
    | true =>
      rw [hframe, Bool.toNat_true] at hbefore
      omega
    | false =>
      have hrx : d.uart.rx ≠ [] := fun hempty => hbusy ((status_quiet d.uart).mpr ⟨hempty, hoverrun, hframe⟩)
      obtain ⟨c, rfl⟩ := Option.isSome_iff_exists.mp (hvalid.mpr ((status_rxvalid _).mpr hrx))
      rw [Option.toList_some, List.length_singleton] at hweight
      omega

theorem iteration_finite (hrange : s.mem.xmit.InRange uartXmitSize)
    (h : Exec (withMemory finiteCore) isrIteration s r t) : ∃ w, Iterated s r t w := by
  simp only [isrIteration, exec_bind_iff, exec_pure] at h
  obtain ⟨stat, u, hstat, r₁, v, hreceive, r₂, w, htransmit, rfl, hsame⟩ := h
  subst hsame
  obtain ⟨rfl, e, rfl, hgoes⟩ := exec_finiteStatus hstat
  obtain ⟨new, haccepted, hnew⟩ := hgoes.received
  have hrx : s.dev.uart.status &&& statusRxvalid ≠ 0 → e.uart.rx ≠ [] := by
    intro hvalid
    rw [hnew]
    exact List.append_ne_nil_of_left_ne_nil ((status_rxvalid _).mp hvalid) _
  obtain ⟨hbusy, b, hreceived⟩ := receive_finite (by exact hrx) hreceive
  have hxmit : v.mem.xmit = s.mem.xmit := congrArg Prod.fst hreceived.mem
  have hxChar : v.mem.xChar = s.mem.xChar := congrArg (fun view => view.2.1) hreceived.mem
  have hread : v.mem.readStatusMask = s.mem.readStatusMask :=
    congrArg (fun view => view.2.2.2.1) hreceived.mem
  have hignore : v.mem.ignoreStatusMask = s.mem.ignoreStatusMask :=
    congrArg (fun view => view.2.2.2.2) hreceived.mem
  have hsent := transmit_finite (by rw [hxmit]; exact hrange) htransmit
  obtain ⟨new', haccepted', hnew'⟩ := hreceived.received
  obtain ⟨new'', haccepted'', hnew''⟩ := hsent.received
  have hwritten : v.dev.uart.written = s.dev.uart.written := hreceived.written.trans hgoes.written
  have hamount : v.mem.txAmount = s.mem.txAmount := by
    rw [UartMem.txAmount, UartMem.txAmount, hxmit, hxChar]
  obtain ⟨hle, hless⟩ := received_less (d := s.dev) (e := v.dev) hreceived.valid
    (hreceived.weight.trans (by simpa [FiniteRegs.weight, UartRegs.clearErrors] using hgoes.weight))
  refine ⟨⟨s.dev.uart.status, b⟩, ?_⟩
  constructor
  · exact hreceived.valid
  · rw [hsent.log, hreceived.log, Config.withDev_dev, hgoes.log, List.append_assoc]
    rfl
  · refine ⟨new ++ (new' ++ new''), ?_, ?_⟩
    · rw [haccepted'', haccepted', Config.withDev_dev, haccepted, List.append_assoc,
        List.append_assoc]
    · have hnew : e.uart.rx = s.dev.uart.rx ++ new := hnew
      rw [← hnew'', ← List.append_assoc, ← List.append_assoc, ← hnew, ← List.append_assoc, ← hnew']
      rfl
  · exact ⟨hsent.masks.1.trans hread, hsent.masks.2.trans hignore⟩
  · exact hsent.inRange
  · exact hsent.icount.trans hreceived.icount
  · exact hsent.flips.trans hreceived.delivered
  · exact hsent.pushes.trans hreceived.pushes
  · rw [← hwritten]
    exact hsent.written_le
  · rw [Bool.or_eq_true, hbusy, ← hwritten, hsent.busy]
  · intro hidle
    obtain ⟨-, rfl⟩ := Bool.or_eq_false_iff.mp hidle
    exact hsent.idle
  · intro hany
    have hamount' := hsent.txAmount_le
    rw [left, left]
    rcases Bool.or_eq_true_iff.mp hany with hfirst | hsecond
    · have hweight := hless (hbusy.mp hfirst)
      have hkeep := hsent.weight
      omega
    · have hkeep := hsent.weight
      have hsmaller := hsent.txAmount_lt hsecond
      omega

end Iteration

section Loop

variable {s t u : FiniteSys} {r : Bool} {w : Exchange} {words : List Exchange}

/-- The iterations of a call, with what the last `STATUS` shows. -/
structure Looped (s t : FiniteSys) (words : List Exchange) : Prop where
  valid : ∀ w ∈ words, (w.byte.isSome = true ↔ w.stat &&& statusRxvalid ≠ 0)
  log : t.dev.log = s.dev.log ++ words.flatMap Exchange.accesses
  received : ∃ new, t.dev.accepted = s.dev.accepted ++ new ∧
    s.dev.uart.rx ++ new = (words.filterMap Exchange.byte) ++ t.dev.uart.rx
  icount : t.mem.icount.rx =
    s.mem.icount.rx + BitVec.ofNat 32 (words.filterMap Exchange.byte).length
  delivered : flips t.trace = flips s.trace ++
    words.flatMap (letThrough s.mem.readStatusMask s.mem.ignoreStatusMask)
  pushes : pushes t.trace = pushes s.trace
  written : s.dev.uart.written <+: t.dev.uart.written
  last : ∃ w, words.getLast? = some w ∧ w.stat &&& statusReceive = 0 ∧
    (w.stat &&& statusTxfull ≠ 0 ∨ TxResting t.mem)
  busy : 1 < words.length ↔
    (∃ w ∈ words, w.stat &&& statusReceive ≠ 0) ∨ t.dev.uart.written ≠ s.dev.uart.written

theorem total_iteration : Total (withMemory finiteCore) isrIteration s := by
  simp only [isrIteration, uliteReceive, receiveChar, countErrors, insertChars, uliteTransmit,
    uartIn32, uartOut32, onlyIf, total_bind, total_ite, total_port, total_get, total_modify,
    total_note, total_pure, implies_true, and_self]

/-- The only iteration. -/
theorem Iterated.single (h : Iterated s false t w) : Looped s t [w] := by
  obtain ⟨hquiet, hsame⟩ := not_or.mp ((not_congr h.busy).mp Bool.false_ne_true)
  have hbytes : [w].filterMap Exchange.byte = w.byte.toList := by
    cases hbyte : w.byte <;> simp [hbyte]
  constructor
  · intro w' hw'
    obtain rfl := List.mem_singleton.mp hw'
    exact h.valid
  · rw [h.log, List.flatMap_singleton]
  · rw [hbytes]
    exact h.received
  · rw [hbytes]
    exact h.icount
  · rw [h.delivered, List.flatMap_singleton]
  · exact h.pushes
  · exact h.written
  · exact ⟨w, rfl, not_not.mp hquiet, h.rest rfl⟩
  · refine iff_of_false (Nat.lt_irrefl 1) (not_or.mpr ⟨?_, hsame⟩)
    rintro ⟨w', hw', hbusy⟩
    obtain rfl := List.mem_singleton.mp hw'
    exact hquiet hbusy

/-- One iteration more. -/
theorem Iterated.cons (h : Iterated s true t w) (h' : Looped t u words) :
    Looped s u (w :: words) := by
  obtain ⟨new, haccepted, hnew⟩ := h.received
  obtain ⟨new', haccepted', hnew'⟩ := h'.received
  obtain ⟨last, hlast, hend⟩ := h'.last
  have hbytes : (w :: words).filterMap Exchange.byte =
      w.byte.toList ++ words.filterMap Exchange.byte := by
    cases hbyte : w.byte <;> simp [hbyte]
  have hne : words ≠ [] := by
    rintro rfl
    cases hlast
  constructor
  · exact List.forall_mem_cons.mpr ⟨h.valid, h'.valid⟩
  · rw [h'.log, h.log, List.flatMap_cons, List.append_assoc]
  · refine ⟨new ++ new', ?_, ?_⟩
    · rw [haccepted', haccepted, List.append_assoc]
    · rw [← List.append_assoc, hnew, List.append_assoc, hnew', hbytes, List.append_assoc]
  · rw [h'.icount, h.icount, hbytes, List.length_append, BitVec.ofNat_add, BitVec.add_assoc]
  · rw [h'.delivered, h.delivered, h.masks.1, h.masks.2, List.flatMap_cons, List.append_assoc]
  · exact h'.pushes.trans h.pushes
  · exact h.written.trans h'.written
  · refine ⟨last, ?_, hend⟩
    rw [List.getLast?_cons, hlast]
    rfl
  · refine iff_of_true ?_ ?_
    · have hpos := List.length_pos_iff.mpr hne
      rw [List.length_cons]
      omega
    · obtain hbusy | hchanged := h.busy.mp rfl
      · exact .inl ⟨w, List.mem_cons_self .., hbusy⟩
      · right
        intro hsame
        -- a byte that has been written stays written
        have hle := h'.written
        rw [hsame] at hle
        exact hchanged (hle.eq_of_length_le h.written.length_le)

theorem loop_finite {n c : ℕ} (hrange : s.mem.xmit.InRange uartXmitSize)
    (h : Exec (withMemory finiteCore) (Prog.iterate (fun n : ℕ => do
      let busy ← isrIteration
      return if busy = true then .inl (n + 1) else .inr (n + 1)) n) s c t) :
    ∃ words, Looped s t words ∧ c = n + words.length := by
  have hbody : ∀ {n : ℕ} {s t : FiniteSys} {x : ℕ ⊕ ℕ}, s.mem.xmit.InRange uartXmitSize →
      Exec (withMemory finiteCore) (do
        let busy ← isrIteration
        return if busy = true then .inl (n + 1) else .inr (n + 1)) s x t →
      ∃ busy w, Iterated s busy t w ∧ x = if busy = true then .inl (n + 1) else .inr (n + 1) := by
    intro n s t x hrange h
    simp only [exec_bind_iff, exec_pure] at h
    obtain ⟨busy, u, hrun, rfl, rfl⟩ := h
    obtain ⟨w, hw⟩ := iteration_finite hrange hrun
    exact ⟨busy, w, hw, rfl⟩
  obtain ⟨n', u, hloop, c', v, hlast, rfl, rfl⟩ := h
  generalize hp : (n, s) = p at hloop
  induction hloop using Relation.ReflTransGen.head_induction_on generalizing n s with
  | refl =>
    obtain ⟨rfl, rfl⟩ := Prod.mk.inj hp
    obtain ⟨busy, w, hw, hx⟩ := hbody hrange hlast
    cases busy with
    | false => exact ⟨[w], hw.single, Sum.inr.inj hx⟩
    | true => cases hx
  | @head p q hfirst _ ih =>
    subst hp
    obtain ⟨busy, w, hw, hx⟩ := hbody hrange hfirst
    cases busy with
    | false => cases hx
    | true =>
      obtain ⟨words, hwords, hc⟩ := ih (by exact hw.inRange) rfl
      refine ⟨w :: words, hw.cons hwords, ?_⟩
      have hnext : q.1 = n + 1 := Sum.inl.inj hx
      rw [hc, hnext, List.length_cons]
      omega

/-- Every iteration that is followed by another leaves less to do. -/
theorem loop_ends {n : ℕ} (hrange : s.mem.xmit.InRange uartXmitSize) :
    Total (withMemory finiteCore) (Prog.iterate (fun n : ℕ => do
      let busy ← isrIteration
      return if busy = true then .inl (n + 1) else .inr (n + 1)) n) s := by
  refine total_iterate (fun _ s => s.mem.xmit.InRange uartXmitSize) (fun _ s => left s) hrange
    (fun n s _ => ?_) fun n s n' t hs h => ?_
  · simp only [total_bind, total_iteration, total_pure, implies_true, and_self]
  · simp only [exec_bind_iff, exec_pure] at h
    obtain ⟨busy, u, hrun, hx, rfl⟩ := h
    obtain ⟨w, hw⟩ := iteration_finite hs hrun
    cases busy with
    | false => cases hx
    | true => exact ⟨hw.inRange, hw.less rfl⟩

/-- A call has found something to do: a byte or an error, or a byte to send. -/
def WorkDone (s t : FiniteSys) (words : List Exchange) : Prop :=
  (∃ w ∈ words, w.stat &&& statusReceive ≠ 0) ∨ t.dev.uart.written ≠ s.dev.uart.written

/-- What `ulite_isr` has read, handed over and answered, with the memory at the end as `rest`
says unless the transmitter is full. -/
structure HandlerRight (rest : UartMem → Prop) (s : FiniteSys) (r : Irqreturn) (t : FiniteSys)
    (words : List Exchange) : Prop where
  log : t.dev.log = s.dev.log ++ words.flatMap Exchange.accesses
  valid : ∀ w ∈ words, (w.byte.isSome = true ↔ w.stat &&& statusRxvalid ≠ 0)
  received : ∃ new, t.dev.accepted = s.dev.accepted ++ new ∧
    s.dev.uart.rx ++ new = (words.filterMap Exchange.byte) ++ t.dev.uart.rx
  icount : t.mem.icount.rx =
    s.mem.icount.rx + BitVec.ofNat 32 (words.filterMap Exchange.byte).length
  delivered : flips t.trace = flips s.trace ++
    words.flatMap (letThrough s.mem.readStatusMask s.mem.ignoreStatusMask)
  last : ∃ w, words.getLast? = some w ∧ w.stat &&& statusReceive = 0 ∧
    (w.stat &&& statusTxfull ≠ 0 ∨ rest t.mem)
  pushed : (r = .handled ∧ pushes t.trace = pushes s.trace + 1) ↔ WorkDone s t words
  silent : (r = .none ∧ pushes t.trace = pushes s.trace) ↔ ¬WorkDone s t words

/-- `ulite_isr` returns, with the receiver drained and the transmitter full or at rest. -/
theorem isr_drains (s : FiniteSys) (hrange : s.mem.xmit.InRange uartXmitSize) :
    Total (withMemory finiteCore) uliteIsr s ∧
      ∀ r t, Exec (withMemory finiteCore) uliteIsr s r t →
        ∃ words, HandlerRight TxResting s r t words := by
  constructor
  · rw [uliteIsr, total_bind]
    refine ⟨loop_ends hrange, fun n t _ => (total_ite _ _ _).mpr ⟨fun _ => ?_, fun _ => total_pure _⟩⟩
    simp only [total_bind, total_note, total_pure, implies_true, and_self]
  · intro r t h
    simp only [uliteIsr, exec_bind_iff, exec_ite, exec_note, exec_pure] at h
    obtain ⟨n, u, hloop, h⟩ := h
    obtain ⟨words, hwords, hn⟩ := loop_finite hrange hloop
    rw [Nat.zero_add] at hn
    have hbusy : n > 1 ↔ WorkDone s u words := hn ▸ hwords.busy
    obtain ⟨hmore, _, _, rfl, rfl, rfl⟩ | ⟨hone, rfl, rfl⟩ := h
    · have hflips : flips (u.trace ++ [.flipBufferPush]) = flips u.trace :=
        List.filterMap_append.trans (List.append_nil _)
      have hpushes : pushes (u.trace ++ [.flipBufferPush]) = pushes s.trace + 1 := by
        rw [← hwords.pushes]
        exact List.count_append
      refine ⟨words, hwords.log, hwords.valid, hwords.received, hwords.icount,
        hflips.trans hwords.delivered, hwords.last, ?_, ?_⟩
      · exact iff_of_true ⟨rfl, hpushes⟩ (hbusy.mp hmore)
      · refine iff_of_false ?_ (not_not.mpr (hbusy.mp hmore))
        rintro ⟨⟨⟩, -⟩
    · refine ⟨words, hwords.log, hwords.valid, hwords.received, hwords.icount, hwords.delivered,
        hwords.last, ?_, ?_⟩
      · refine iff_of_false ?_ (mt hbusy.mpr hone)
        rintro ⟨⟨⟩, -⟩
      · exact iff_of_true ⟨rfl, hwords.pushes⟩ (mt hbusy.mpr hone)

end Loop

section Runs

def idle (_ : FiniteRegs) (_ : Port) : Outcome := ⟨0, 0, []⟩

/-- A byte has been received and one is to be sent, while the masks let all bytes through. -/
def busyPort : FiniteSys where
  mem := { freshPort.mem with
    xmit := ⟨fun _ => 0x41, 1, 0⟩
    readStatusMask := statusRxvalid ||| statusOverrun ||| statusTxfull }
  trace := []
  dev := ⟨{ freshPort.dev with rx := [0x42] }, 0, [], []⟩

/-- Nothing has been received, and the tty is stopped with a byte to send. -/
def stoppedPort : FiniteSys where
  mem := { freshPort.mem with xmit := ⟨fun _ => 0x41, 1, 0⟩, txStopped := true }
  trace := []
  dev := ⟨freshPort.dev, 0, [], []⟩

def handled (s : FiniteSys) : FiniteSys :=
  ((run (onDevice FiniteRegs.answer idle) 3 uliteIsr s).getD (.none, s)).2

theorem exec_handled {s : FiniteSys} {r : Irqreturn}
    (h : run (onDevice FiniteRegs.answer idle) 3 uliteIsr s = some (r, handled s)) :
    Exec (withMemory finiteCore) uliteIsr s r (handled s) :=
  (onDevice_refines FiniteRegs.answer idle).exec _ ((watch_sound _ _).1 _ _ h)

/-- The byte is received and handed over, and the other one sent. -/
theorem isr_drains_busyPort : Total (withMemory finiteCore) uliteIsr busyPort ∧
    ∃ words, HandlerRight TxResting busyPort .handled (handled busyPort) words := by
  obtain ⟨htotal, hright⟩ := isr_drains busyPort ⟨by decide, by decide⟩
  exact ⟨htotal, hright .handled (handled busyPort) (exec_handled rfl)⟩

/-- A stopped tty keeps its bytes although the transmitter is not full. -/
theorem stopped_bytes_left : ¬∀ s : FiniteSys, s.mem.xmit.InRange uartXmitSize →
    Total (withMemory finiteCore) uliteIsr s ∧
      ∀ r t, Exec (withMemory finiteCore) uliteIsr s r t → ∃ words,
        HandlerRight (fun d => d.xChar = 0 ∧ uartCircEmpty d.xmit) s r t words := by
  intro h
  obtain ⟨words, hright⟩ := (h stoppedPort ⟨by decide, by decide⟩).2 .none (handled stoppedPort)
    (exec_handled rfl)
  obtain ⟨w, hw, -, hfull | ⟨-, hempty⟩⟩ := hright.last
  · -- the only `STATUS` is that of an empty transmitter
    have hlog : [Access.status 0x14] = words.flatMap Exchange.accesses := hright.log
    have hmem : Access.status w.stat ∈ words.flatMap Exchange.accesses :=
      List.mem_flatMap.mpr ⟨w, List.mem_of_getLast? hw, List.mem_cons_self ..⟩
    rw [← hlog, List.mem_singleton] at hmem
    rw [Access.status.inj hmem] at hfull
    exact hfull (by decide)
  · exact absurd hempty (by decide)

end Runs

end PynqPrio.Uart
