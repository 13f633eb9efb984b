import PynqPrio.IicDeviceRules
import PynqPrio.IicEncoding

/-!
# The read command and the reassembly of a read message

The device is the receive side of the core, with logs: what `RFO` answered, the bytes taken
from the RX FIFO, and the threshold written last. `xiic_start_recv` sends the command and
programs the first threshold; each `xiic_read_rx` takes what the FIFO reports, at most what
is missing, and programs the next one.
-/
namespace PynqPrio.Iic
open Programs Programs.Driver Programs.Prog

/-- The answers of `RFO`, the bytes taken from `DRR` and the last value written to `RFD`. -/
structure RxLog where
  rfo : List (BitVec 8)
  popped : List (BitVec 8)
  rfd : BitVec 8

/-- `RFO`, `DRR` and all other registers read arbitrary values. -/
def rxLog : Machine Port Port.Res RxLog
  | e, .getreg8 .rfo, v, e' => e' = { e with rfo := e.rfo ++ [v] }
  | e, .getreg8 .drr, v, e' => e' = { e with popped := e.popped ++ [v] }
  | e, .setreg8 .rfd v, _, e' => e' = { e with rfd := v }
  | e, _, _, e' => e' = e

def Port.Unlogged : Port → Prop
  | .getreg8 .rfo | .getreg8 .drr | .setreg8 .rfd _ => False
  | _ => True

theorem rxLog_of_unlogged (p : Port) (e : RxLog) (x : Port.Res p) (e' : RxLog)
    (hp : p.Unlogged) (h : rxLog e p x e') : e' = e := by
  cases p with
  | getreg8 reg =>
    cases reg with
    | rfo => exact hp.elim
    | drr => exact hp.elim
    | _ => exact h
  | setreg8 reg v =>
    cases reg with
    | rfd => exact hp.elim
    | _ => exact h
  | setreg16 reg v =>
    cases reg with
    | _ => exact h
  | getreg32 reg => exact h
  | setreg32 reg v => exact h

section Commands

variable {s : Sys RxLog} {i : ℕ} {m : I2cMsg}

abbrev Logs {α : Type} (p : Xiic α) (Q : α → Sys RxLog → Prop) (s : Sys RxLog) : Prop :=
  Meets (withMemory rxLog) (onDev anyAccess) p Q s

theorem logs_irqClrEn (mask : BitVec 32) : Logs (xiicIrqClrEn mask) (fun _ t => t = s) s := by
  have hget : ∀ {t : Sys RxLog} (reg : Reg), Logs (xiicGetreg32 reg) (fun _ u => u = t) t := by
    intro t reg
    refine (meets_dev_getreg32 reg).mpr ?_
    intro v e' h
    obtain rfl := rxLog_of_unlogged (.getreg32 reg) t.dev v e' trivial h
    exact ⟨trivial, rfl⟩
  have hset : ∀ {t : Sys RxLog} (reg : Reg) (v : BitVec 32),
      Logs (xiicSetreg32 reg v) (fun _ u => u = t) t := by
    intro t reg v
    refine (meets_dev_setreg32 reg v).mpr ?_
    intro e' h
    obtain rfl := rxLog_of_unlogged (.setreg32 reg v) t.dev () e' trivial h
    exact ⟨trivial, rfl⟩
  have hclr : Logs (xiicIrqClr mask) (fun _ t => t = s) s := by
    refine (meets_bind _ _).mpr ((hget _).imp ?_)
    rintro isr _ rfl
    exact hset _ _
  refine (meets_bind _ _).mpr (hclr.imp ?_)
  rintro _ _ rfl
  refine (meets_bind _ _).mpr ((hget _).imp ?_)
  rintro ier _ rfl
  exact hset _ _

def recvWords (m : I2cMsg) (nmsgs : ℕ) : List (BitVec 16) :=
  (if m.NoStart then [] else [(m.addr <<< 1) ||| readOperation ||| txDynStartMask]) ++
    [m.len ||| if nmsgs = 1 then txDynStopMask else 0]

/-- The threshold that `xiic_start_recv` programs: the length is truncated to eight bits
before it is compared with the depth of the FIFO. -/
def recvThreshold (m : I2cMsg) : BitVec 8 :=
  BitVec.ofInt 8 ((if u8 m.len.toNat > rxFifoDepth then rxFifoDepth else u8 m.len.toNat : ℕ) - 1)

theorem logs_startRecv (hp : s.mem.txMsg = some i) (hm : s.mem.msgs[i]? = some m) :
    Logs xiicStartRecv (fun _ t => dtrWords t.trace = dtrWords s.trace ++ recvWords m s.mem.nmsgs ∧
      t.dev = { s.dev with rfd := recvThreshold m } ∧
      t.mem = { s.mem with rxMsg := some i, txPos := m.len.toNat }) s := by
  rw [Logs, xiicStartRecv, meets_bind, meets_onDev_modify, meets_bind, meets_get, meets_bind]
  refine (meets_dev_deref (i := i) (m := m) (by exact hp) (by exact hm)).mpr ?_
  refine (meets_bind _ _).mpr ((logs_irqClrEn _).imp ?_)
  rintro _ _ rfl
  refine (meets_bind _ _).mpr ((meets_dev_setreg8 _ _).mpr ?_)
  rintro _ rfl
  refine ⟨trivial, ?_⟩
  -- the count word, after the address word if there is one
  have hend : ∀ t : Sys RxLog, t.mem.nmsgs = s.mem.nmsgs → Logs (do
      xiicIrqClrEn intrBnbMask
      let d ← get
      xiicSetreg16 .dtr (m.len ||| if d.nmsgs = 1 then txDynStopMask else 0)
      if d.nmsgs = 1 then xiicIrqClrEn intrBnbMask
      modify fun d => { d with txPos := m.len.toNat })
      (fun _ u => u.trace = t.trace ++
          [.dtr (m.len ||| if s.mem.nmsgs = 1 then txDynStopMask else 0)] ∧
        u.dev = t.dev ∧ u.mem = { t.mem with txPos := m.len.toNat }) t := by
    intro t ht
    refine (meets_bind _ _).mpr ((logs_irqClrEn _).imp ?_)
    rintro _ _ rfl
    rw [meets_bind, meets_get, meets_bind, meets_dev_setreg16, ht]
    rintro _ rfl
    refine ⟨trivial, (meets_ite _ _ _).mpr ⟨fun _ => ?_, fun _ => ?_⟩⟩
    · refine (meets_bind _ _).mpr ((logs_irqClrEn _).imp ?_)
      rintro _ _ rfl
      exact (meets_onDev_modify _).mpr ⟨rfl, rfl, rfl⟩
    · exact (meets_onDev_modify _).mpr ⟨rfl, rfl, rfl⟩
  refine (meets_ite _ _ _).mpr ⟨fun hstart => ?_, fun hstart => ?_⟩
  · refine (meets_bind _ _).mpr ((meets_dev_setreg16 _ _).mpr ?_)
    rintro _ rfl
    refine ⟨trivial, (hend _ (by exact rfl)).imp ?_⟩
    rintro _ t ⟨htrace, hdev, hmem⟩
    refine ⟨?_, hdev, by rw [hmem]; simp [hp]⟩
    rw [htrace, recvWords, if_neg hstart]
    simp [dtrWords]
  · refine (hend _ (by exact rfl)).imp ?_
    rintro _ t ⟨htrace, hdev, hmem⟩
    refine ⟨?_, hdev, by rw [hmem]; simp [hp]⟩
    rw [htrace, recvWords, if_pos (not_not.mp hstart)]
    simp [dtrWords]

structure DtrWord where
  start : Bool
  stop : Bool
  low : BitVec 8

def decodeDtr (word : BitVec 16) : DtrWord where
  start := word.getLsbD 8
  stop := word.getLsbD 9
  low := word.setWidth 8

/-- The words are a START with the address of the message and the read direction, and its
length with the STOP flag on the last message of the transfer; the threshold is one below
the length or the depth of the FIFO. -/
def ReadCommand (x : Transfer) (i : ℕ) (m : I2cMsg) (words : List (BitVec 16)) (rfd : BitVec 8) :
    Prop :=
  ∃ address count, words = [address, count] ∧
    (decodeDtr address).start = true ∧ (decodeDtr address).low.toNat = 2 * m.addr.toNat + 1 ∧
    (decodeDtr count).start = false ∧ (decodeDtr count).low.toNat = m.len.toNat ∧
    ((decodeDtr count).stop = true ↔ i + 1 = x.msgs.length) ∧
    rfd.toNat = min m.len.toNat rxFifoDepth - 1

theorem decode_address (addr : BitVec 16) (h : addr.toNat < 128) :
    (decodeDtr ((addr <<< 1) ||| readOperation ||| txDynStartMask)).start = true ∧
    (decodeDtr ((addr <<< 1) ||| readOperation ||| txDynStartMask)).low.toNat =
      2 * addr.toNat + 1 := by
  have hall : ∀ a < 128, (decodeDtr ((BitVec.ofNat 16 a <<< 1) ||| readOperation |||
        txDynStartMask)).start = true ∧
      (decodeDtr ((BitVec.ofNat 16 a <<< 1) ||| readOperation ||| txDynStartMask)).low.toNat =
        2 * a + 1 := by
    decide
  simpa using hall addr.toNat h

theorem decode_count (len stop : BitVec 16) (h : len.toNat ≤ 255)
    (hstop : stop = txDynStopMask ∨ stop = 0) :
    (decodeDtr (len ||| stop)).start = false ∧
    (decodeDtr (len ||| stop)).low.toNat = len.toNat ∧
    ((decodeDtr (len ||| stop)).stop = true ↔ stop = txDynStopMask) := by
  have hbit : ∀ k, 8 ≤ k → len.getLsbD k = false := fun k hk =>
    Nat.testBit_lt_two_pow (lt_of_lt_of_le (b := 2 ^ 8) (by omega) (Nat.pow_le_pow_right (by omega) hk))
  have hlow : (len ||| stop).setWidth 8 = len.setWidth 8 := by
    rw [BitVec.setWidth_or]
    rcases hstop with rfl | rfl
    · exact BitVec.or_zero
    · exact BitVec.or_zero
  refine ⟨?_, ?_, ?_⟩
  · show (len ||| stop).getLsbD 8 = false
    rw [BitVec.getLsbD_or, hbit 8 le_rfl]
    rcases hstop with rfl | rfl <;> rfl
  · show ((len ||| stop).setWidth 8).toNat = len.toNat
    rw [hlow, BitVec.toNat_setWidth]
    exact Nat.mod_eq_of_lt (by omega)
  · show (len ||| stop).getLsbD 9 = true ↔ _
    rw [BitVec.getLsbD_or, hbit 9 (by omega)]
    rcases hstop with rfl | rfl <;> decide

theorem recvThreshold_toNat (m : I2cMsg) (h1 : 1 ≤ m.len.toNat) (h : m.len.toNat ≤ 255) :
    (recvThreshold m).toNat = min m.len.toNat rxFifoDepth - 1 := by
  have hu8 : u8 m.len.toNat = m.len.toNat := by
    simp only [u8]
    omega
  have hmin : (if m.len.toNat > rxFifoDepth then rxFifoDepth else m.len.toNat) =
      min m.len.toNat rxFifoDepth := by
    split <;> omega
  rw [recvThreshold, hu8, hmin]
  have hle : min m.len.toNat rxFifoDepth ≤ 16 := Nat.min_le_right _ _
  have hpos : 1 ≤ min m.len.toNat rxFifoDepth := le_min h1 (by decide)
  rw [BitVec.toNat_ofInt]
  omega

/-- The command of a read is the one its message asks for if and only if the length of the
message fits into eight bits. -/
theorem read_command_iff (x : Transfer) (s t : Sys RxLog) (i : ℕ) (m : I2cMsg)
    (hat : At x s.mem i m) (hstart : ¬m.NoStart) (haddr : m.addr.toNat < 128)
    (hlen : 1 ≤ m.len.toNat) (run : Exec (withMemory rxLog) xiicStartRecv s () t) :
    (∃ words, dtrWords t.trace = dtrWords s.trace ++ words ∧ ReadCommand x i m words t.dev.rfd) ↔
      m.len.toNat ≤ 255 := by
  obtain ⟨hwords, hdev, -⟩ := (logs_startRecv hat.txMsg hat.get).2 _ _ run
  rw [recvWords, if_neg hstart, List.singleton_append] at hwords
  have hlast : s.mem.nmsgs = 1 ↔ i + 1 = x.msgs.length := by
    have hsum := hat.nmsgs
    omega
  constructor
  · rintro ⟨words, hw, address, count, -, -, -, -, hlow, -⟩
    rw [← hlow]
    exact Nat.le_of_lt_succ (decodeDtr count).low.isLt
  · intro hle
    have haddress := decode_address m.addr haddr
    have hcount := decode_count m.len (if s.mem.nmsgs = 1 then txDynStopMask else 0) hle
      (by split <;> simp)
    refine ⟨_, hwords, _, _, rfl, haddress.1, haddress.2, hcount.1, hcount.2.1, ?_, ?_⟩
    · rw [hcount.2.2, ← hlast]
      by_cases hn : s.mem.nmsgs = 1
      · simp [hn]
      · simp only [hn, if_false, iff_false]
        decide
    · rw [hdev]
      exact recvThreshold_toNat m hlen hle

/-- A device with an empty TX FIFO that has nothing pending. -/
def quietLog (e : RxLog) (_ : Unit) : (p : Port) → Option (Port.Res p × RxLog)
  | .getreg8 .rfo => some (0, { e with rfo := e.rfo ++ [0] })
  | .getreg8 .drr => some (0x5A, { e with popped := e.popped ++ [0x5A] })
  | .setreg8 .rfd v => some ((), { e with rfd := v })
  | p => some (drained p, e)

theorem quietLog_refines : (ofAnswer quietLog).Refines rxLog id := by
  rintro e p v e' ⟨_, h⟩
  cases p with
  | getreg8 reg =>
    cases reg with
    | _ =>
      obtain ⟨rfl, rfl⟩ := Prod.mk.inj (Option.some.inj h)
      rfl
  | setreg8 reg w =>
    cases reg with
    | _ =>
      obtain ⟨_, rfl⟩ := Prod.mk.inj (Option.some.inj h)
      rfl
  | setreg16 reg w =>
    obtain ⟨_, rfl⟩ := Prod.mk.inj (Option.some.inj h)
    cases reg with
    | _ => rfl
  | getreg32 reg =>
    obtain ⟨_, rfl⟩ := Prod.mk.inj (Option.some.inj h)
    rfl
  | setreg32 reg w =>
    obtain ⟨_, rfl⟩ := Prod.mk.inj (Option.some.inj h)
    rfl

def oneRead (len : BitVec 16) : Transfer where
  msgs := [⟨0x50, i2cMRd, len⟩]
  bufs := fun _ _ => 0
  pos := Nat.one_pos
  lt := show 1 < 2147483648 by decide

def atRead (len : BitVec 16) : XiicI2c :=
  { assigned (oneRead len) probed with state := .start }

theorem at_oneRead (len : BitVec 16) : At (oneRead len) (atRead len) 0 ⟨0x50, i2cMRd, len⟩ :=
  ⟨rfl, rfl, rfl, rfl, nofun⟩

/-- A read of sixteen bytes. -/
theorem read_command_sixteen : ∃ t, Exec (withMemory rxLog) xiicStartRecv
    ⟨atRead 16, [], ⟨[], [], 0⟩⟩ () t ∧ ∃ words, dtrWords t.trace = words ∧
      ReadCommand (oneRead 16) 0 ⟨0x50, i2cMRd, 16⟩ words t.dev.rfd := by
  have href := withMemory_refines (D := XiicI2c) (E := Event) quietLog_refines
  have hdevice := onDevice_refines (D := XiicI2c) (E := Event) quietLog fun _ _ => ()
  have hrun : (run (onDevice quietLog fun _ _ => ()) 40 xiicStartRecv
      ⟨atRead 16, [], ⟨[], [], 0⟩⟩).map (fun _ => ()) = some () := by
    decide +kernel
  obtain ⟨_, t, hexec, -⟩ := exec_of_run (fun _ : Sys RxLog => ()) hrun
  have hexec' := href.exec _ (hdevice.exec _ hexec)
  exact ⟨t, hexec', (read_command_iff (oneRead 16) _ t 0 _ (at_oneRead 16) (by decide) (by decide)
    (by decide) hexec').mpr (by decide)⟩

/-- The count word of a read of 256 bytes is another START, with address 0, and the
threshold is 255. -/
theorem long_read_restarts : ∃ t, Exec (withMemory rxLog)
    (startTransfer (oneRead 256).msgs (oneRead 256).bufs) ⟨probed, [], ⟨[], [], 0⟩⟩ () t ∧
      dtrWords t.trace = [0x1A1, 0x300] ∧ t.dev.rfd = 255 ∧
      ¬ReadCommand (oneRead 256) 0 ⟨0x50, i2cMRd, 256⟩ (dtrWords t.trace) t.dev.rfd := by
  have href := withMemory_refines (D := XiicI2c) (E := Event) quietLog_refines
  have hdevice := onDevice_refines (D := XiicI2c) (E := Event) quietLog fun _ _ => ()
  have hrun : (run (onDevice quietLog fun _ _ => ()) 40
      (startTransfer (oneRead 256).msgs (oneRead 256).bufs) ⟨probed, [], ⟨[], [], 0⟩⟩).map
      (fun r => (dtrWords r.2.trace, r.2.dev.rfd)) = some ([0x1A1, 0x300], 255) := by
    decide +kernel
  obtain ⟨_, t, hexec, hend⟩ := exec_of_run (fun t : Sys RxLog => (dtrWords t.trace, t.dev.rfd)) hrun
  obtain ⟨hwords, hrfd⟩ := Prod.mk.inj hend
  refine ⟨t, href.exec _ (hdevice.exec _ hexec), hwords, hrfd, ?_⟩
  rintro ⟨address, count, hw, -, -, hcount, -⟩
  rw [hwords] at hw
  simp only [List.cons.injEq, and_true] at hw
  obtain ⟨-, rfl⟩ := hw
  exact absurd hcount (by decide)

end Commands

section Reassembly

/-- The states after `xiic_start_recv` and any number of calls of `xiic_read_rx`, with no
other message started in between. -/
inductive Receiving (s : Sys RxLog) : Sys RxLog → Prop where
  | start {t : Sys RxLog} (run : Exec (withMemory rxLog) xiicStartRecv s () t) : Receiving s t
  | read {t u : Sys RxLog} (h : Receiving s t)
      (run : Exec (withMemory rxLog) xiicReadRx t () u) : Receiving s u

def announced (rfo : List (BitVec 8)) : ℕ := (rfo.map fun v => (v.toNat + 1) % 256).sum

variable {s t : Sys RxLog} {i : ℕ} {m : I2cMsg}

/-- The first bytes of the buffer are those taken from the FIFO, in order, and everything
else is as `xiic_start_recv` found it. -/
structure Filled (s : Sys RxLog) (i : ℕ) (m : I2cMsg) (t : Sys RxLog) : Prop where
  rxMsg : t.mem.rxMsg = some i
  msgs : t.mem.msgs = s.mem.msgs
  rxPos : t.mem.rxPos = t.dev.popped.length
  le : t.dev.popped.length ≤ m.len.toNat
  stored : ∀ k, (h : k < t.dev.popped.length) → t.mem.bufs i k = t.dev.popped[k]
  untouched : ∀ j k, j ≠ i ∨ t.dev.popped.length ≤ k → t.mem.bufs j k = s.mem.bufs j k

/-- Between two calls the position is what `RFO` has announced, and the threshold can be
reached. -/
structure Reassembled (s : Sys RxLog) (i : ℕ) (m : I2cMsg) (t : Sys RxLog) : Prop
    extends Filled s i m t where
  count : t.dev.popped.length = min m.len.toNat (announced t.dev.rfo)
  threshold : t.dev.popped.length < m.len.toNat →
    t.dev.rfd.toNat ≤ m.len.toNat - t.dev.popped.length - 1

/-- The threshold after the start is reachable also where the length was truncated. -/
theorem recvThreshold_le (m : I2cMsg) (h : 1 ≤ m.len.toNat) :
    (recvThreshold m).toNat ≤ m.len.toNat - 1 := by
  have hlen := len_lt m
  rw [recvThreshold, BitVec.toNat_ofInt]
  by_cases hdepth : u8 m.len.toNat > rxFifoDepth
  · rw [if_pos hdepth]
    simp only [u8, rxFifoDepth] at *
    omega
  · rw [if_neg hdepth]
    simp only [u8, rxFifoDepth] at *
    omega

theorem rfdValue_le {n : ℕ} (h : 1 ≤ n) : (rfdValue n).toNat ≤ n - 1 := by
  rw [rfdValue]
  by_cases hdepth : (n : ℤ) > rxFifoDepth
  · rw [if_pos hdepth]
    simp only [rxFifoDepth] at *
    rw [BitVec.toNat_ofNat]
    omega
  · rw [if_neg hdepth]
    simp only [rxFifoDepth] at *
    rw [BitVec.toNat_ofInt]
    omega

theorem announced_append (rfo : List (BitVec 8)) (v : BitVec 8) :
    announced (rfo ++ [v]) = announced rfo + (v.toNat + 1) % 256 := by
  simp [announced]

/-- One byte goes from the FIFO to the place behind the bytes stored. -/
theorem filled_storeRxByte (h : Filled s i m t) (hlt : t.dev.popped.length < m.len.toNat) :
    Logs storeRxByte (fun _ u => Filled s i m u ∧ u.dev.rfo = t.dev.rfo ∧ u.dev.rfd = t.dev.rfd ∧
      u.dev.popped.length = t.dev.popped.length + 1) t := by
  refine (meets_dev_storeRxByte h.rxMsg).mpr ?_
  rintro (byte : BitVec 8) _ rfl
  refine ⟨trivial, ⟨h.rxMsg, h.msgs, ?_, ?_, ?_, ?_⟩, rfl, rfl, by simp⟩
  · simp [h.rxPos]
  · rw [List.length_append]
    exact hlt
  · intro k hk
    simp only [List.length_append, List.length_singleton] at hk
    by_cases hlast : k = t.dev.popped.length
    · subst hlast
      simp [h.rxPos]
    · have hk' : k < t.dev.popped.length := by omega
      simp only [h.rxPos, Nat.cast_inj, true_and, if_neg hlast, List.getElem_append_left hk']
      exact h.stored k hk'
  · intro j k hjk
    simp only [List.length_append, List.length_singleton] at hjk
    have hne : ¬(j = i ∧ (k : ℤ) = t.mem.rxPos) := by
      rw [h.rxPos]
      omega
    simp only [if_neg hne]
    exact h.untouched j k (hjk.imp_right fun hle => by omega)

theorem reassembled_readRx (hm : s.mem.msgs[i]? = some m) (h : Reassembled s i m t) :
    Logs xiicReadRx (fun _ u => Reassembled s i m u) t := by
  have hmsg : t.mem.msgs[i]? = some m := h.msgs ▸ hm
  refine meets_dev_readRx (J := fun v k u => Filled s i m u ∧ u.dev.rfo = t.dev.rfo ++ [v] ∧
    u.dev.popped.length = t.dev.popped.length + k) h.rxMsg hmsg h.rxPos h.le ?_ ?_ ?_
  · rintro v _ rfl
    exact ⟨trivial, ⟨h.rxMsg, h.msgs, h.rxPos, h.le, h.stored, h.untouched⟩, rfl, rfl⟩
  · rintro v k u hk ⟨hfilled, hrfo, hlength⟩
    simp only [readCount] at hk
    refine (filled_storeRxByte hfilled (by omega)).imp ?_
    rintro _ w ⟨hw, hrfo', -, hlength'⟩
    exact ⟨hw, hrfo'.trans hrfo, by omega⟩
  · rintro v u ⟨hfilled, hrfo, hlength⟩
    have hcount : u.dev.popped.length = min m.len.toNat (announced u.dev.rfo) := by
      rw [hrfo, announced_append, hlength, readCount]
      have hbefore := h.count
      omega
    refine (meets_bind _ _).mpr ((meets_dev_rxSpace hfilled.rxMsg (hfilled.msgs ▸ hm)).mpr ?_)
    refine (meets_dev_setreg8 _ _).mpr ?_
    rintro _ rfl
    refine ⟨trivial, ⟨hfilled.rxMsg, hfilled.msgs, hfilled.rxPos, hfilled.le, hfilled.stored,
      hfilled.untouched⟩, hcount, fun hlt => ?_⟩
    have hspace : (m.len.toNat : ℤ) - u.mem.rxPos = (m.len.toNat - u.dev.popped.length : ℕ) := by
      rw [hfilled.rxPos]
      have hle := hfilled.le
      omega
    simp only [hspace]
    exact rfdValue_le (Nat.sub_pos_of_lt hlt)

theorem reassembled_startRecv (hp : s.mem.txMsg = some i) (hm : s.mem.msgs[i]? = some m)
    (h0 : s.mem.rxPos = 0) (hlog : s.dev.rfo = [] ∧ s.dev.popped = []) (hlen : 1 ≤ m.len.toNat) :
    Logs xiicStartRecv (fun _ t => Reassembled s i m t) s := by
  refine (logs_startRecv hp hm).imp ?_
  rintro _ t ⟨-, hdev, hmem⟩
  have hpopped : t.dev.popped = [] := by rw [hdev]; exact hlog.2
  have hrfo : t.dev.rfo = [] := by rw [hdev]; exact hlog.1
  refine ⟨⟨by rw [hmem], by rw [hmem], ?_, ?_, ?_, ?_⟩, ?_, ?_⟩
  · simp [hmem, h0, hpopped]
  · simp [hpopped]
  · simp [hpopped]
  · simp [hmem]
  · simp [hpopped, hrfo, announced]
  · intro _
    simpa [hdev, hlog.2] using recvThreshold_le m hlen

/-- After the start of a read and any sequence of calls of `xiic_read_rx`, the buffer holds
the bytes taken from the FIFO in order, as many as `RFO` has announced, and the threshold is
below the number of bytes that are missing. -/
theorem read_reassembled (s t : Sys RxLog) (i : ℕ) (m : I2cMsg) (hp : s.mem.txMsg = some i)
    (hm : s.mem.msgs[i]? = some m) (h0 : s.mem.rxPos = 0)
    (hlog : s.dev.rfo = [] ∧ s.dev.popped = []) (hlen : 1 ≤ m.len.toNat) (h : Receiving s t) :
    t.mem.rxPos = min m.len.toNat (announced t.dev.rfo) ∧
    (t.dev.popped.length : ℤ) = t.mem.rxPos ∧
    (∀ k, (hk : k < t.dev.popped.length) → t.mem.bufs i k = t.dev.popped[k]) ∧
    (∀ j (k : ℕ), j ≠ i ∨ t.mem.rxPos ≤ k → t.mem.bufs j k = s.mem.bufs j k) ∧
    t.dev.popped.length ≤ m.len.toNat ∧
    (t.mem.rxPos < m.len.toNat → (t.dev.rfd.toNat : ℤ) ≤ m.len.toNat - t.mem.rxPos - 1) := by
  have hall : Reassembled s i m t := by
    induction h with
    | start run => exact (reassembled_startRecv hp hm h0 hlog hlen).2 _ _ run
    | read h run ih => exact (reassembled_readRx hm ih).2 _ _ run
  have hpos := hall.rxPos
  refine ⟨?_, hpos.symm, hall.stored, fun j k hjk => hall.untouched j k ?_, hall.le, fun hlt => ?_⟩
  · rw [hpos, hall.count]
  · rw [hpos] at hjk
    exact hjk.imp_right fun hle => by omega
  · have hthreshold := hall.threshold (by omega)
    omega

/-- A read of two bytes that arrive one by one. -/
theorem read_reassembled_two : ∃ t, Receiving ⟨atRead 2, [], ⟨[], [], 0⟩⟩ t ∧
    t.mem.rxPos = 2 ∧ t.mem.bufs 0 0 = 0x5A ∧ t.mem.bufs 0 1 = 0x5A ∧ t.dev.popped.length ≤ 2 := by
  have href := withMemory_refines (D := XiicI2c) (E := Event) quietLog_refines
  have hdevice := onDevice_refines (D := XiicI2c) (E := Event) quietLog fun _ _ => ()
  have hrun : (run (onDevice quietLog fun _ _ => ()) 40 (do
      xiicStartRecv
      xiicReadRx
      xiicReadRx) ⟨atRead 2, [], ⟨[], [], 0⟩⟩).map
      (fun r => (r.2.mem.rxPos, r.2.dev.popped)) = some (2, [0x5A, 0x5A]) := by
    decide +kernel
  obtain ⟨_, t, hexec, hend⟩ := exec_of_run (fun t : Sys RxLog => (t.mem.rxPos, t.dev.popped)) hrun
  obtain ⟨hpos, hpopped⟩ := Prod.mk.inj hend
  obtain ⟨_, u, hstart, hreads⟩ := (exec_bind _ _ _ _ _).mp (href.exec _ (hdevice.exec _ hexec))
  obtain ⟨_, v, hfirst, hsecond⟩ := (exec_bind _ _ _ _ _).mp hreads
  have hreceiving : Receiving ⟨atRead 2, [], ⟨[], [], 0⟩⟩ t := .read (.read (.start hstart) hfirst) hsecond
  obtain ⟨-, -, hstored, -, hle, -⟩ := read_reassembled _ t 0 ⟨0x50, i2cMRd, 2⟩ rfl rfl rfl
    ⟨rfl, rfl⟩ (by decide) hreceiving
  refine ⟨t, hreceiving, hpos, ?_, ?_, hle⟩
  · rw [hstored 0 (by simp [hpopped])]
    simp [hpopped]
  · rw [hstored 1 (by simp [hpopped])]
    simp [hpopped]

end Reassembly

end PynqPrio.Iic
