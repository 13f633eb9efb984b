import PynqPrio.IicBus
import PynqPrio.IicTransfers

/-!
# Detection of the byte order

`xiic_i2c_probe` resets the TX FIFO as on a little-endian device and reads `SR` back. The
little-endian branch of `xiic_getreg32` in `i2c-byu.c` reads nothing, so what is detected
does not depend on the device; with the branch of `i2c-xiic.c` it is the device's order.
-/
namespace PynqPrio.Iic
open Programs Programs.Driver Programs.Prog

section Preserved

/-- No function of the driver changes the endianness that the probe has detected. -/
abbrev SameEndianness {α : Type} (p : Xiic α) : Prop := Preserves XiicI2c.endianness p

theorem same_setreg16 (reg : Reg) (v : BitVec 16) : SameEndianness (xiicSetreg16 reg v) :=
  .bind (.port _) fun _ => .note _

theorem same_deref (p : Option ℕ) : SameEndianness (deref p) := by
  refine .bind .get fun d => ?_
  cases p.bind (d.msgs[·]?) with
  | none => exact .bind (.note _) fun _ => .pure _
  | some m => exact .pure _

theorem same_txSpace : SameEndianness xiicTxSpace :=
  .bind .get fun _ => .bind (same_deref _) fun _ => .bind (.note _) fun _ => .pure _

theorem same_rxSpace : SameEndianness xiicRxSpace :=
  .bind .get fun _ => .bind (same_deref _) fun _ => .bind (.note _) fun _ => .pure _

theorem same_irqDis (mask : BitVec 32) : SameEndianness (xiicIrqDis mask) :=
  .bind (.port _) fun _ => .port _

theorem same_irqEn (mask : BitVec 32) : SameEndianness (xiicIrqEn mask) :=
  .bind (.port _) fun _ => .port _

theorem same_irqClr (mask : BitVec 32) : SameEndianness (xiicIrqClr mask) :=
  .bind (.port _) fun _ => .port _

theorem same_irqClrEn (mask : BitVec 32) : SameEndianness (xiicIrqClrEn mask) :=
  .bind (same_irqClr mask) fun _ => same_irqEn mask

theorem same_clearRxFifo : SameEndianness xiicClearRxFifo :=
  .iterate fun _ => .bind (.port _) fun _ =>
    .ite (.pure _) (.bind (.port _) fun _ => .pure _)

theorem same_reinit : SameEndianness xiicReinit :=
  .bind (.note _) fun _ => .bind (.port _) fun _ => .bind (.port _) fun _ =>
    .bind (.port _) fun _ => .bind (.port _) fun _ => .bind same_clearRxFifo fun _ =>
    .bind (.port _) fun _ => same_irqClrEn _

theorem same_storeRxByte : SameEndianness storeRxByte := by
  refine .bind (.port _) fun byte => .get_bind fun d => ?_
  cases d.rxMsg with
  | none => exact trivial
  | some i => exact ⟨rfl, trivial⟩

theorem same_readRx : SameEndianness xiicReadRx :=
  .bind (.port _) fun _ => .bind same_rxSpace fun _ =>
    .bind (.iterate fun _ => .ite (.bind same_storeRxByte fun _ => .pure _) (.pure _)) fun _ =>
    .bind same_rxSpace fun _ => .port _

theorem same_txFifoSpace : SameEndianness xiicTxFifoSpace :=
  .bind (.port _) fun _ => .pure _

theorem same_loadTxByte : SameEndianness loadTxByte := by
  refine .get_bind fun d => ?_
  cases d.txMsg with
  | none => exact trivial
  | some i => exact ⟨rfl, trivial⟩

theorem same_fillTxFifo : SameEndianness xiicFillTxFifo := by
  have hword : SameEndianness fillTxWord :=
    .bind same_loadTxByte fun _ => .bind same_txSpace fun _ => .bind .get fun _ =>
      same_setreg16 _ _
  exact .bind same_txFifoSpace fun _ => .bind same_txSpace fun _ =>
    .iterate fun _ => .ite (.pure _) (.bind hword fun _ => .pure _)

theorem same_wakeup (code : XilinxI2cState) : SameEndianness (xiicWakeup code) :=
  .bind (.modify fun _ => rfl) fun _ => .note _

theorem same_startRecv : SameEndianness xiicStartRecv := by
  have hlast : ∀ v : BitVec 16, SameEndianness (do
      xiicIrqClrEn intrBnbMask
      let d ← get
      xiicSetreg16 .dtr (v ||| if d.nmsgs = 1 then txDynStopMask else 0)
      if d.nmsgs = 1 then xiicIrqClrEn intrBnbMask
      modify fun d => { d with txPos := v.toNat }) := fun v =>
    .bind (same_irqClrEn _) fun _ => .bind .get fun _ => .bind (same_setreg16 _ _) fun _ =>
      .ite (.bind (same_irqClrEn _) fun _ => .modify fun _ => rfl) (.modify fun _ => rfl)
  exact .bind (.modify fun _ => rfl) fun _ => .bind .get fun _ => .bind (same_deref _) fun m =>
    .bind (same_irqClrEn _) fun _ => .bind (.port _) fun _ =>
    .ite (.bind (same_setreg16 _ _) fun _ => hlast m.len) (hlast m.len)

theorem same_startSend : SameEndianness xiicStartSend := by
  have hfill : SameEndianness (do
      xiicFillTxFifo
      xiicIrqClrEn (intrTxEmptyMask ||| intrTxErrorMask ||| intrBnbMask)) :=
    .bind same_fillTxFifo fun _ => same_irqClrEn _
  exact .bind .get fun _ => .bind (same_deref _) fun _ => .bind (same_irqClr _) fun _ =>
    .ite (.bind (same_setreg16 _ _) fun _ => hfill) hfill

theorem same_startXferUnlocked : SameEndianness xiicStartXferUnlocked := by
  have hcurrent : SameEndianness startCurrent :=
    .bind .get fun _ => .bind (same_deref _) fun _ =>
      .ite (.bind same_startRecv fun _ => .pure _) (.bind same_startSend fun _ =>
        .bind same_txSpace fun _ => .ite (.pure _) (.bind same_txFifoSpace fun _ => .pure _))
  have hbody : ∀ first space, SameEndianness (startXferBody first space) := fun _ _ =>
    .bind .get fun _ => .ite (.ite (.bind (.modify fun _ => rfl) fun _ =>
      .bind (.modify fun _ => rfl) fun _ => hcurrent) hcurrent) (.pure _)
  refine .bind same_txFifoSpace fun v => .bind .get fun d => ?_
  cases d.txMsg with
  | none => exact .pure _
  | some i =>
    exact .bind (.note _) fun _ => .bind (.modify fun _ => rfl) fun _ =>
      .bind (.iterate fun _ => hbody _ _) fun _ => .ite
        (.bind .get fun _ => .ite (.bind (.pure _) fun _ => .ite (same_irqClrEn _) (.pure _))
          (.bind same_txSpace fun _ => .ite (same_irqClrEn _) (.pure _)))
        (.pure _)

theorem same_process : SameEndianness xiicProcess := by
  have hnext : SameEndianness (do
      nextMsg
      xiicStartXferUnlocked) :=
    .bind (.modify fun _ => rfl) fun _ => same_startXferUnlocked
  have herror : ∀ pend, SameEndianness (processError pend) := fun _ =>
    .ite (.bind same_reinit fun _ => .bind .get fun _ =>
      .ite (.bind (same_wakeup _) fun _ => .bind .get fun _ => .ite (same_wakeup _) (.pure _))
        (.bind .get fun _ => .ite (same_wakeup _) (.pure _))) (.pure _)
  have hrx : ∀ isr pend clr, SameEndianness (processRx isr pend clr) := fun _ _ _ =>
    .ite (.pure _) (.bind .get fun _ => .ite (.bind same_clearRxFifo fun _ => .pure _)
      (.bind same_readRx fun _ => .bind same_rxSpace fun _ => .ite (.pure _)
        (.bind (.modify fun _ => rfl) fun _ => .bind .get fun _ =>
          .ite (.bind (.modify fun _ => rfl) fun _ => .bind same_startXferUnlocked fun _ =>
            .pure _) (.pure _))))
  have hbnb : ∀ out pend clr, SameEndianness (processBnb out pend clr) := fun _ _ _ =>
    .ite (.pure _) (.bind (same_irqDis _) fun _ => .bind .get fun _ => .ite (.pure _)
      (.ite (.bind same_txSpace fun _ => .bind (same_wakeup _) fun _ => .pure _)
        (.bind (.pure _) fun _ => .bind (same_wakeup _) fun _ => .pure _)))
  have hdone : SameEndianness processTxDone :=
    .bind same_txSpace fun _ => .ite (.bind same_txFifoSpace fun _ => .bind .get fun _ =>
      .ite (.ite hnext (same_irqDis _)) (.ite (same_irqDis _) (.pure _))) (.pure _)
  have htx : ∀ out pend clr, SameEndianness (processTx out pend clr) := fun _ _ _ =>
    .ite (.pure _) (.bind .get fun _ => .ite (.pure _) (.bind same_fillTxFifo fun _ =>
      .bind hdone fun _ => .pure _))
  exact .bind (.port _) fun _ => .bind (.port _) fun _ => .bind (.note _) fun _ =>
    .bind (herror _) fun _ => .bind (hrx _ _ _) fun _ => .bind (hbnb _ _ _) fun _ =>
    .bind (htx _ _ _) fun _ => .port _

theorem same_busBusy : SameEndianness xiicBusBusy :=
  .bind (.port _) fun _ => .pure _

theorem same_busy : SameEndianness xiicBusy :=
  .bind .get fun _ => .ite (.pure _) (.bind same_busBusy fun _ =>
    .iterate fun _ => .ite (.bind same_busBusy fun _ => .pure _) (.pure _))

end Preserved

/-- The structure with another endianness. -/
def XiicI2c.inOrder (d : XiicI2c) (e : XiicEndian) : XiicI2c := { d with endianness := e }

@[simp] theorem XiicI2c.inOrder_endianness (d : XiicI2c) (e : XiicEndian) :
    (d.inOrder e).endianness = e := rfl

/-- The detection in `xiic_i2c_probe`: the TX FIFO is reset as on a little-endian device,
and if it does not read as empty the byte order was wrong. -/
def detectEndianness : Xiic Unit := do
  modify fun d => d.inOrder .little
  xiicSetreg32 .cr (crTxFifoResetMask.setWidth 32)
  let sr ← xiicGetreg32 .sr
  if sr &&& srTxFifoEmptyMask.setWidth 32 = 0 then
    modify fun d => d.inOrder .big

/-- The functions that run after the detection. -/
inductive DriverCall : {α : Type} → Xiic α → Prop where
  | reinit : DriverCall xiicReinit
  | irqDis (mask : BitVec 32) : DriverCall (xiicIrqDis mask)
  | irqEn (mask : BitVec 32) : DriverCall (xiicIrqEn mask)
  | irqClr (mask : BitVec 32) : DriverCall (xiicIrqClr mask)
  | isr : DriverCall xiicIsr
  | process : DriverCall xiicProcess
  | busBusy : DriverCall xiicBusBusy
  | busy : DriverCall xiicBusy
  | assign (msgs : List I2cMsg) (bufs : ℕ → ℕ → BitVec 8) : DriverCall (assignTransfer msgs bufs)
  | startXfer : DriverCall xiicStartXfer
  | timeout : DriverCall timeoutCleanup

theorem DriverCall.same {α : Type} {p : Xiic α} (h : DriverCall p) : SameEndianness p := by
  cases h with
  | reinit => exact same_reinit
  | irqDis mask => exact same_irqDis mask
  | irqEn mask => exact same_irqEn mask
  | irqClr mask => exact same_irqClr mask
  | isr => exact .bind (.port _) fun _ => .bind (.port _) fun _ => .pure _
  | process => exact same_process
  | busBusy => exact same_busBusy
  | busy => exact same_busy
  | assign msgs bufs => exact .modify fun _ => rfl
  | startXfer => exact .bind same_reinit fun _ => same_startXferUnlocked
  | timeout => exact .modify fun _ => rfl

section Transparency

variable {δ : Type}

/-- What the detection relies on: a reset of the TX FIFO makes it read as empty, and the
upper bits of the status register are 0. -/
structure IicRegisters (dev : Machine RegOp RegOp.Res δ) : Prop where
  txFifoReset : ∀ {s t u l l'} {value v : BitVec 32}, dev s (.write Reg.cr.offset l value) () t →
    l.getLsbD 0 = true → value &&& crTxFifoResetMask.setWidth 32 ≠ 0 →
    dev t (.read Reg.sr.offset l') v u → v &&& srTxFifoEmptyMask.setWidth 32 ≠ 0
  status : ∀ {s t l} {v : BitVec 32}, dev s (.read Reg.sr.offset l) v t → v.toNat < 256

/-- The driver above the bus of a device with the byte order `e`. -/
abbrev ExecBus (littleRead : ℕ → Bus (BitVec 32)) (e : XiicEndian) (undef : BitVec 32 → Prop)
    (dev : Machine RegOp RegOp.Res δ) {α : Type} (p : Xiic α) (s : Sys δ) (a : α) (t : Sys δ) :
    Prop :=
  Exec (withMemory (onBus e undef dev)) (lower (Bus.access littleRead) p) s a t

/-- The states of the driver between its calls, from the detection on. -/
inductive BusReached (littleRead : ℕ → Bus (BitVec 32)) (e : XiicEndian)
    (undef : BitVec 32 → Prop) (dev : Machine RegOp RegOp.Res δ) : Sys δ → Prop where
  | detected {d : δ} {t : Sys δ}
      (run : ExecBus littleRead e undef dev detectEndianness ⟨probed, [], d⟩ () t) :
      BusReached littleRead e undef dev t
  | call {α : Type} {p : Xiic α} {s t : Sys δ} {a : α} (hp : DriverCall p)
      (before : BusReached littleRead e undef dev s)
      (run : ExecBus littleRead e undef dev p s a t) : BusReached littleRead e undef dev t

/-- In the state `s` the byte order makes no difference: it has been detected, every
accessor accesses the logical register that it names, and every function of the driver
does what it does on the logical registers. -/
structure TransparentAt (littleRead : ℕ → Bus (BitVec 32)) (e : XiicEndian)
    (undef : BitVec 32 → Prop) (dev : Machine RegOp RegOp.Res δ) (s : Sys δ) : Prop where
  detected : s.mem.endianness = e
  accesses : ∀ (p : Port) x t, Exec (withMemory (onBus e undef dev)) (Bus.access littleRead p) s x t ↔
    ∃ d, registers dev s.dev p x d ∧ t = s.withDev d
  runs : ∀ {α : Type} {p : Xiic α}, DriverCall p → ∀ a t,
    ExecBus littleRead e undef dev p s a t ↔ Exec (withMemory (registers dev)) p s a t

/-- The byte order `e` makes no difference in any state of any device. -/
def Transparent (littleRead : ℕ → Bus (BitVec 32)) (e : XiicEndian) (undef : BitVec 32 → Prop) :
    Prop :=
  ∀ {δ : Type} (dev : Machine RegOp RegOp.Res δ), IicRegisters dev →
    ∀ s, BusReached littleRead e undef dev s → TransparentAt littleRead e undef dev s

variable {e : XiicEndian} {undef : BitVec 32 → Prop} {dev : Machine RegOp RegOp.Res δ}
  {littleRead : ℕ → Bus (BitVec 32)} {s t : Sys δ}

theorem exec_setreg32_little (hs : s.mem.endianness = .little) (reg : Reg) (v : BitVec 32)
    (x : Unit) :
    Exec (withMemory (onBus e undef dev)) (Bus.access littleRead (.setreg32 reg v)) s x t ↔
      ∃ d, dev s.dev (.write reg.offset (lanes e reg.offset 4)
        (assemble e reg.offset (toBytes v 4))) () d ∧ t = s.withDev d := by
  have haddr : reg.offset / 4 * 4 = reg.offset := 
    start_div (e := .little) (n := 4) reg.offset_mod (by decide)
  simp only [Bus.access, Bus.xiicSetreg32, iowrite32, iowrite32be, busWrite, exec_bind_iff,
    exec_get, exec_ite, exec_port, onBus]
  have hlength : (toBytes v 4).length = 4 := by simp [toBytes]
  rw [haddr, hlength]
  simp [hs]

theorem exec_getreg32_little (hs : s.mem.endianness = .little) (reg : Reg) (x : BitVec 32) :
    Exec (withMemory (onBus e undef dev)) (Bus.access littleRead (.getreg32 reg)) s x t ↔
      Exec (withMemory (onBus e undef dev)) (littleRead reg.offset) s x t := by
  simp [Bus.access, Bus.xiicGetreg32, hs]

/-- What the detection comes to. -/
theorem exec_detect (hread : ∀ (s t : Sys δ) sr,
      Exec (withMemory (onBus e undef dev)) (littleRead Reg.sr.offset) s sr t → t.mem = s.mem) :
    ExecBus littleRead e undef dev detectEndianness s () t ↔
      ∃ d, dev s.dev (.write Reg.cr.offset (lanes e Reg.cr.offset 4)
        (assemble e Reg.cr.offset (toBytes (crTxFifoResetMask.setWidth 32) 4))) () d ∧
      ∃ sr u, Exec (withMemory (onBus e undef dev)) (littleRead Reg.sr.offset)
        ((s.withMem (s.mem.inOrder .little)).withDev d) sr u ∧
      t = u.withMem (s.mem.inOrder
        (if sr &&& srTxFifoEmptyMask.setWidth 32 = 0 then .big else .little)) := by
  simp only [ExecBus, detectEndianness, xiicSetreg32, xiicGetreg32, lower_bind, lower_modify,
    lower_port, lower_ite, lower_pure, exec_bind_iff, exec_modify, exec_ite, exec_pure]
  constructor
  · rintro ⟨_, _, rfl, _, u, hset, sr, w, hget, hend⟩
    obtain ⟨d, hd, rfl⟩ := (exec_setreg32_little rfl _ _ _).mp hset
    rw [exec_getreg32_little rfl] at hget
    refine ⟨d, hd, sr, w, hget, ?_⟩
    have hmem : w.mem = s.mem.inOrder .little := hread _ _ _ hget
    rcases hend with ⟨hsr, rfl⟩ | ⟨hsr, -, rfl⟩
    · rw [if_pos hsr, hmem]
      rfl
    · rw [if_neg hsr, ← hmem]
      rfl
  · rintro ⟨d, hd, sr, w, hget, rfl⟩
    refine ⟨(), _, rfl, (), _, (exec_setreg32_little rfl _ _ _).mpr ⟨d, hd, rfl⟩, sr, w,
      (exec_getreg32_little rfl _ _).mpr hget, ?_⟩
    have hmem : w.mem = s.mem.inOrder .little := hread _ _ _ hget
    by_cases hsr : sr &&& srTxFifoEmptyMask.setWidth 32 = 0
    · rw [if_pos hsr, hmem]
      exact .inl ⟨hsr, rfl⟩
    · rw [if_neg hsr, ← hmem]
      exact .inr ⟨hsr, trivial, rfl⟩

/-- The detection of `i2c-byu.c`: what it finds is up to the uninitialized variable. -/
theorem exec_detect_byu : ExecBus Bus.byuLittleRead e undef dev detectEndianness s () t ↔
    ∃ d, dev s.dev (.write Reg.cr.offset (lanes e Reg.cr.offset 4)
        (assemble e Reg.cr.offset (toBytes (crTxFifoResetMask.setWidth 32) 4))) () d ∧
      ∃ sr, undef sr ∧ t = (s.withDev d).withMem (s.mem.inOrder
        (if sr &&& srTxFifoEmptyMask.setWidth 32 = 0 then .big else .little)) := by
  have hread : ∀ (s t : Sys δ) (sr : BitVec 32), Exec (withMemory (onBus e undef dev))
      (Bus.byuLittleRead Reg.sr.offset) s sr t ↔ undef sr ∧ t = s := by
    intro s t sr
    refine (exec_port (R := BusOp.Res) .indeterminate sr).trans ?_
    constructor
    · rintro ⟨d, ⟨hsr, rfl⟩, rfl⟩
      exact ⟨hsr, rfl⟩
    · rintro ⟨hsr, rfl⟩
      exact ⟨_, ⟨hsr, rfl⟩, rfl⟩
  rw [exec_detect fun s t sr h => congrArg Config.mem ((hread s t sr).mp h).2]
  simp only [hread]
  constructor
  · rintro ⟨d, hd, sr, _, ⟨hsr, rfl⟩, rfl⟩
    exact ⟨d, hd, sr, hsr, rfl⟩
  · rintro ⟨d, hd, sr, hsr, rfl⟩
    exact ⟨d, hd, sr, _, ⟨hsr, rfl⟩, rfl⟩

/-- Where the detection finds the byte order of the device and the registers are read,
the byte order makes no difference from then on. -/
theorem transparentAt_of_detects (hread : e = .little → ReadsRegister undef dev littleRead)
    (hdetect : ∀ (s t : Sys δ), ExecBus littleRead e undef dev detectEndianness s () t →
      t.mem.endianness = e) (h : BusReached littleRead e undef dev s) :
    TransparentAt littleRead e undef dev s := by
  have hruns : ∀ {s : Sys δ}, s.mem.endianness = e → ∀ {α : Type} {p : Xiic α}, DriverCall p →
      ∀ a t, ExecBus littleRead e undef dev p s a t ↔ Exec (withMemory (registers dev)) p s a t :=
    fun hs _ _ hp a _ => exec_lower (fun q _ x _ hs => exec_access hs hread q x) hp.same hs a
  have hs : s.mem.endianness = e := by
    induction h with
    | detected run => exact hdetect _ _ run
    | call hp _ run ih => exact (hp.same.exec ((hruns ih hp _ _).mp run)).trans ih
  exact ⟨hs, fun p x t => exec_access hs hread p x, fun hp => hruns hs hp⟩

/-- The low byte of what is read in the wrong order is the upper byte of the register. -/
theorem empty_swapped {v : BitVec 32} (hv : v.toNat < 256) :
    ofBytes (bytesAt .big v Reg.sr.offset 4) &&& srTxFifoEmptyMask.setWidth 32 = 0 := by
  have hlow : bytesAt .big v Reg.sr.offset 4 =
      byteOf v 3 :: bytesAt .big v (Reg.sr.offset + 1) 3 := rfl
  have hbyte : byteOf v 3 = 0 := by
    apply BitVec.eq_of_toNat_eq
    simp [byteOf, Nat.shiftRight_eq_div_pow]
    omega
  have hmask : srTxFifoEmptyMask.setWidth 32 = BitVec.twoPow 32 7 := by decide
  rw [hlow, hbyte, ofBytes, hmask, BitVec.and_twoPow]
  simp

/-- With the branch of `i2c-xiic.c` no byte order makes a difference. -/
theorem transparent_xiicLittleRead (e : XiicEndian) (undef : BitVec 32 → Prop) :
    Transparent Bus.xiicLittleRead e undef := by
  intro δ dev hdev s h
  have hread : ∀ (s t : Sys δ) (sr : BitVec 32), Exec (withMemory (onBus e undef dev))
      (Bus.xiicLittleRead Reg.sr.offset) s sr t ↔ ∃ d, (∃ v : BitVec 32,
        dev s.dev (.read Reg.sr.offset (lanes e Reg.sr.offset 4)) v d ∧
        sr = ofBytes (bytesAt e v Reg.sr.offset 4)) ∧ t = s.withDev d := by
    intro s t sr
    have haddr : Reg.sr.offset / 4 * 4 = Reg.sr.offset := rfl
    simp only [Bus.xiicLittleRead, ioread32, busRead, exec_bind_iff, exec_port, exec_pure, onBus]
    rw [haddr]
    constructor
    · rintro ⟨_, _, ⟨d, ⟨v, hv, rfl⟩, rfl⟩, rfl, rfl⟩
      exact ⟨d, ⟨v, hv, rfl⟩, rfl⟩
    · rintro ⟨d, ⟨v, hv, rfl⟩, rfl⟩
      exact ⟨_, _, ⟨d, ⟨v, hv, rfl⟩, rfl⟩, rfl, rfl⟩
  refine transparentAt_of_detects (fun _ => exec_ioread32) (fun s t hrun => ?_) h
  have hmem : ∀ (s t : Sys δ) sr, Exec (withMemory (onBus e undef dev))
      (Bus.xiicLittleRead Reg.sr.offset) s sr t → t.mem = s.mem := by
    intro s t sr hsr
    obtain ⟨d, _, rfl⟩ := (hread s t sr).mp hsr
    rfl
  obtain ⟨d, hd, sr, u, hsr, rfl⟩ := (exec_detect hmem).mp hrun
  obtain ⟨d', ⟨v, hv, rfl⟩, rfl⟩ := (hread _ _ _).mp hsr
  cases e with
  | little =>
    have hreset := hdev.txFifoReset hd (by decide) (by decide) hv
    have hvalue : ofBytes (bytesAt .little v Reg.sr.offset 4) = v :=
      ofBytes_four (e := .little) (a := Reg.sr.offset) rfl v
    rw [hvalue, if_neg hreset]
    rfl
  | big =>
    rw [if_pos (empty_swapped (hdev.status hv))]
    rfl

end Transparency

section Detection

/-- A device whose status register says that the FIFOs are empty and the bus is busy. -/
def constantRegisters (c : BitVec 32) : Machine RegOp RegOp.Res Unit
  | _, .write .., _, _ => True
  | _, .read reg _, v, _ => v = if reg = Reg.sr.offset then 0xC4 else c

theorem iicRegisters_constant (c : BitVec 32) : IicRegisters (constantRegisters c) where
  txFifoReset := by
    rintro s t u l l' value v - - - hv
    obtain rfl : v = 0xC4 := hv
    decide
  status := by
    rintro s t l v hv
    obtain rfl : v = 0xC4 := hv
    decide

variable {e : XiicEndian} {undef : BitVec 32 → Prop} {v : BitVec 32}

/-- The endianness that the uninitialized value `v` leads to. -/
def endiannessOf (v : BitVec 32) : XiicEndian :=
  if v &&& srTxFifoEmptyMask.setWidth 32 = 0 then .big else .little

theorem detected_constant (c : BitVec 32) (hv : undef v) :
    BusReached Bus.byuLittleRead e undef (constantRegisters c)
      ⟨probed.inOrder (endiannessOf v), [], ()⟩ :=
  .detected (d := ()) (exec_detect_byu.mpr ⟨(), trivial, v, hv, rfl⟩)

theorem big_of_transparent (h : Transparent Bus.byuLittleRead e undef) (hv : undef v) :
    e = .big ∧ v &&& srTxFifoEmptyMask.setWidth 32 = 0 := by
  have hat := h _ (iicRegisters_constant (v + 1)) _ (detected_constant (v + 1) hv)
  have hdetected : endiannessOf v = e := hat.detected
  cases e with
  | little =>
    -- the driver takes the right branch and still does not read the register
    have hvalue : Exec (withMemory (onBus .little undef (constantRegisters (v + 1))))
        (Bus.access Bus.byuLittleRead (.getreg32 .iier))
        ⟨probed.inOrder (endiannessOf v), [], ()⟩ v ⟨probed.inOrder (endiannessOf v), [], ()⟩ := by
      refine (exec_getreg32_little hdetected _ _).mpr ?_
      exact (exec_port (R := BusOp.Res) .indeterminate v).mpr ⟨(), ⟨hv, rfl⟩, rfl⟩
    obtain ⟨d, hd, -⟩ := (hat.accesses _ _ _).mp hvalue
    have hbad : v = v + 1 := hd
    exact absurd hbad (by simp)
  | big =>
    exact ⟨rfl, by simpa [endiannessOf] using hdetected⟩

/-- The two byte orders make no difference to each other: from the same state a function
of the driver can do the same to the logical registers, with the same answer. -/
def SameRuns (littleRead : ℕ → Bus (BitVec 32)) (undef : BitVec 32 → Prop) : Prop :=
  ∀ {δ : Type} (dev : Machine RegOp RegOp.Res δ), IicRegisters dev → ∀ s₁ s₂ : Sys δ,
    BusReached littleRead .little undef dev s₁ → BusReached littleRead .big undef dev s₂ →
    s₁.dev = s₂.dev → s₁.mem.inOrder .little = s₂.mem.inOrder .little →
    ∀ {α : Type} {p : Xiic α}, DriverCall p → ∀ a d,
      (∃ t, ExecBus littleRead .little undef dev p s₁ a t ∧ t.dev = d) ↔
        ∃ t, ExecBus littleRead .big undef dev p s₂ a t ∧ t.dev = d

theorem getreg8_constant {littleRead : ℕ → Bus (BitVec 32)} {c : BitVec 32} {s t : Sys Unit}
    (b : BitVec 8) : Exec (withMemory (onBus e undef (constantRegisters c)))
        (Bus.access littleRead (.getreg8 .sr)) s b t ↔
      b = (ofBytes (bytesAt e 0xC4 (start s.mem.endianness Reg.sr.offset 1) 1)).setWidth 8 ∧
        t = s := by
  have haccess : Exec (withMemory (onBus e undef (constantRegisters c)))
      (Bus.access littleRead (.getreg8 .sr)) s b t ↔
      Exec (withMemory (onBus e undef (constantRegisters c)))
        (ioread8 (start s.mem.endianness Reg.sr.offset 1)) s b t := by
    cases hd : s.mem.endianness <;> simp [Bus.access, Bus.xiicGetreg8, start, hd]
  have haddr : start s.mem.endianness Reg.sr.offset 1 / 4 * 4 = Reg.sr.offset :=
    start_div rfl (by decide)
  rw [haccess]
  simp only [ioread8, busRead, exec_bind_iff, exec_port, exec_pure, onBus, constantRegisters,
    if_pos haddr]
  constructor
  · rintro ⟨_, _, ⟨d, ⟨_, rfl, rfl⟩, rfl⟩, rfl, rfl⟩
    exact ⟨rfl, rfl⟩
  · rintro ⟨rfl, rfl⟩
    exact ⟨_, _, ⟨(), ⟨_, rfl, rfl⟩, rfl⟩, rfl, rfl⟩

/-- The bus reads as busy in the byte order of the device only. -/
theorem busBusy_constant {littleRead : ℕ → Bus (BitVec 32)} {c : BitVec 32} {s t : Sys Unit}
    {a : Bool} : ExecBus littleRead e undef (constantRegisters c) xiicBusBusy s a t ↔
      a = decide (s.mem.endianness = e) ∧ t = s := by
  have hvalue : ∀ f : XiicEndian, (ofBytes (bytesAt e 0xC4 (start f Reg.sr.offset 1) 1)).setWidth 8
      &&& srBusBusyMask ≠ 0 ↔ f = e := by
    intro f
    cases e <;> cases f <;> decide
  simp only [ExecBus, xiicBusBusy, xiicGetreg8, lower_bind, lower_port, lower_pure, exec_bind_iff,
    exec_pure]
  constructor
  · rintro ⟨b, u, hb, rfl, rfl⟩
    obtain ⟨rfl, rfl⟩ := (getreg8_constant b).mp hb
    exact ⟨decide_eq_decide.mpr (hvalue _), rfl⟩
  · rintro ⟨rfl, rfl⟩
    exact ⟨_, _, (getreg8_constant _).mpr ⟨rfl, rfl⟩, decide_eq_decide.mpr (hvalue _).symm, rfl⟩

/-- The driver does not tell the devices apart, and one of them takes it for the other. -/
theorem not_sameRuns (hv : undef v) : ¬SameRuns Bus.byuLittleRead undef := by
  intro h
  have hbusy := h _ (iicRegisters_constant 0) _ _ (detected_constant 0 hv)
    (detected_constant 0 hv) rfl rfl .busBusy true ()
  simp only [busBusy_constant] at hbusy
  cases hdetected : endiannessOf v <;> simp [hdetected] at hbusy

/-- The byte order makes no difference exactly on the big-endian devices whose probe finds
the FIFO not empty in the uninitialized variable; it never does for both byte orders. -/
theorem transparent_iff (undef : BitVec 32 → Prop) (hundef : ∃ v, undef v) :
    (∀ e, Transparent Bus.byuLittleRead e undef ↔
      e = .big ∧ ∀ v, undef v → v &&& srTxFifoEmptyMask.setWidth 32 = 0) ∧
    ¬SameRuns Bus.byuLittleRead undef := by
  obtain ⟨v, hv⟩ := hundef
  refine ⟨fun e => ⟨fun h => ?_, ?_⟩, not_sameRuns hv⟩
  · exact ⟨(big_of_transparent h hv).1, fun w hw => (big_of_transparent h hw).2⟩
  · rintro ⟨rfl, hempty⟩ δ dev hdev s h
    refine transparentAt_of_detects (by simp) (fun s t hrun => ?_) h
    obtain ⟨d, _, sr, hsr, rfl⟩ := exec_detect_byu.mp hrun
    rw [if_pos (hempty sr hsr)]
    rfl

/-- On a big-endian device whose probe finds 0 in the variable the byte order makes no
difference. -/
theorem transparent_bigZero : Transparent Bus.byuLittleRead .big (fun v => v = 0) := by
  refine ((transparent_iff (fun v => v = 0) ⟨0, rfl⟩).1 .big).mpr ⟨rfl, ?_⟩
  rintro v rfl
  decide

/-- On a little-endian device it does, even when the probe finds the FIFO empty. -/
theorem little_not_transparent : ¬∀ e, Transparent Bus.byuLittleRead e (fun v => v = 0x80) := by
  intro h
  exact absurd (big_of_transparent (h .little) rfl).1 (by decide)

end Detection

end PynqPrio.Iic
