import PynqPrio.IicBufferSafety
import PynqPrio.ProofOutlines

/-!
# Rules for the functions of the I2C driver on one device

The rules of `IicRules` forget the device. Here the device is kept and the guarantee is
about the device alone, so that the driver's own accesses to its memory disappear from a
judgement and every register access gives what the device says about it.
-/
namespace PynqPrio.Iic
open Programs Programs.Driver Programs.Prog

variable {α δ : Type} {dev : Machine Port Port.Res δ} {H : δ → δ → Prop} [Std.Refl H] {s : Sys δ}

section Accessors

theorem meets_dev_getreg8 (reg : Reg) {Q : BitVec 8 → Sys δ → Prop} :
    Meets (withMemory dev) (onDev H) (xiicGetreg8 reg) Q s ↔
      ∀ v e, dev s.dev (.getreg8 reg) v e → H s.dev e ∧ Q v (s.withDev e) :=
  meets_onDev_port (P := Port) (R := Port.Res) (.getreg8 reg)

theorem meets_dev_getreg32 (reg : Reg) {Q : BitVec 32 → Sys δ → Prop} :
    Meets (withMemory dev) (onDev H) (xiicGetreg32 reg) Q s ↔
      ∀ v e, dev s.dev (.getreg32 reg) v e → H s.dev e ∧ Q v (s.withDev e) :=
  meets_onDev_port (P := Port) (R := Port.Res) (.getreg32 reg)

theorem meets_dev_setreg8 (reg : Reg) (v : BitVec 8) {Q : Unit → Sys δ → Prop} :
    Meets (withMemory dev) (onDev H) (xiicSetreg8 reg v) Q s ↔
      ∀ e, dev s.dev (.setreg8 reg v) () e → H s.dev e ∧ Q () (s.withDev e) :=
  (meets_onDev_port (P := Port) (R := Port.Res) (.setreg8 reg v)).trans
    ⟨fun h => h (), fun h _ => h⟩

theorem meets_dev_setreg32 (reg : Reg) (v : BitVec 32) {Q : Unit → Sys δ → Prop} :
    Meets (withMemory dev) (onDev H) (xiicSetreg32 reg v) Q s ↔
      ∀ e, dev s.dev (.setreg32 reg v) () e → H s.dev e ∧ Q () (s.withDev e) :=
  (meets_onDev_port (P := Port) (R := Port.Res) (.setreg32 reg v)).trans
    ⟨fun h => h (), fun h _ => h⟩

theorem meets_dev_setreg16 (reg : Reg) (v : BitVec 16) {Q : Unit → Sys δ → Prop} :
    Meets (withMemory dev) (onDev H) (xiicSetreg16 reg v) Q s ↔
      ∀ e, dev s.dev (.setreg16 reg v) () e →
        H s.dev e ∧ Q () ((s.withDev e).noted (.dtr v)) := by
  rw [xiicSetreg16, meets_bind]
  refine (meets_onDev_port (P := Port) (R := Port.Res) (.setreg16 reg v)).trans ?_
  simp only [meets_onDev_note]
  exact ⟨fun h => h (), fun h _ => h⟩

/-- `TFO` is the only register behind the space of the TX FIFO. -/
theorem meets_dev_txFifoSpace {Q : ℤ → Sys δ → Prop} :
    Meets (withMemory dev) (onDev H) xiicTxFifoSpace Q s ↔
      ∀ v e, dev s.dev (.getreg8 .tfo) v e →
        H s.dev e ∧ Q (16 - (v : BitVec 8).toNat - 1) (s.withDev e) := by
  simp only [xiicTxFifoSpace, meets_bind, meets_pure, meets_dev_getreg8, txFifoDepth]
  rfl

end Accessors

section Pointers

variable {i : ℕ} {m : I2cMsg}

omit [Std.Refl H] in
theorem meets_dev_deref {p : Option ℕ} (hp : p = some i) (hm : s.mem.msgs[i]? = some m)
    {Q : I2cMsg → Sys δ → Prop} :
    Meets (withMemory dev) (onDev H) (deref p) Q s ↔ Q m s := by
  simp only [deref, meets_bind, meets_get, hp, Option.bind_some, hm, meets_pure]

theorem meets_dev_txSpace (hp : s.mem.txMsg = some i) (hm : s.mem.msgs[i]? = some m)
    {Q : ℕ → Sys δ → Prop} :
    Meets (withMemory dev) (onDev H) xiicTxSpace Q s ↔
      Q (u32 (m.len.toNat - s.mem.txPos)) (s.noted (.txSpace m.len.toNat s.mem.txPos)) := by
  simp only [xiicTxSpace, meets_bind, meets_get, meets_dev_deref hp hm, meets_onDev_note,
    meets_pure]

theorem meets_dev_rxSpace (hp : s.mem.rxMsg = some i) (hm : s.mem.msgs[i]? = some m)
    {Q : ℤ → Sys δ → Prop} :
    Meets (withMemory dev) (onDev H) xiicRxSpace Q s ↔
      Q (m.len.toNat - s.mem.rxPos) (s.noted (.rxSpace m.len.toNat s.mem.rxPos)) := by
  simp only [xiicRxSpace, meets_bind, meets_get, meets_dev_deref hp hm, meets_onDev_note,
    meets_pure]

/-- The word of the byte at the position, with the STOP flag on the very last byte. -/
def fillWord (d : XiicI2c) (i : ℕ) (m : I2cMsg) : BitVec 16 :=
  if d.txPos + 1 = m.len.toNat ∧ d.nmsgs = 1 then
    (d.bufs i d.txPos).setWidth 16 ||| txDynStopMask
  else (d.bufs i d.txPos).setWidth 16

/-- Inside the message one iteration of the fill loop writes the next byte. -/
theorem meets_dev_fillTxWord (hp : s.mem.txMsg = some i) (hm : s.mem.msgs[i]? = some m)
    (hlt : s.mem.txPos < m.len.toNat) {Q : Unit → Sys δ → Prop} :
    Meets (withMemory dev) (onDev H) fillTxWord Q s ↔
      ∀ e, dev s.dev (.setreg16 .dtr (fillWord s.mem i m)) () e → H s.dev e ∧
        Q () ⟨{ s.mem with txPos := s.mem.txPos + 1 }, s.trace ++ [.load i s.mem.txPos,
          .txSpace m.len.toNat (s.mem.txPos + 1), .dtr (fillWord s.mem i m)], e⟩ := by
  have hlen := len_lt m
  have hpos : u32 ((s.mem.txPos : ℤ) + 1) = s.mem.txPos + 1 := by
    simp only [u32]
    omega
  have hspace : u32 ((m.len.toNat : ℤ) - (s.mem.txPos + 1 : ℕ)) = 0 ↔
      s.mem.txPos + 1 = m.len.toNat := by
    rw [u32_sub hlen (by omega)]
    omega
  obtain ⟨⟨txMsg, txPos, nmsgs, state, rxMsg, rxPos, endianness, msgs, bufs⟩, trace, e⟩ := s
  obtain rfl : txMsg = some i := hp
  simp only [fillTxWord, loadTxByte, meets_bind, meets_get, meets_onDev_note, meets_onDev_set,
    meets_pure]
  rw [meets_dev_txSpace (i := i) (m := m) (by exact rfl) (by exact hm)]
  simp only [Config.noted_mem, Config.withMem_mem] at hpos hspace ⊢
  rw [hpos]
  simp only [hspace, meets_dev_setreg16, fillWord, Config.noted, Config.withMem, Config.withDev,
    List.append_assoc, List.cons_append, List.nil_append]

/-- Storing the next byte of the RX FIFO through the receive pointer. -/
theorem meets_dev_storeRxByte (hp : s.mem.rxMsg = some i) {Q : Unit → Sys δ → Prop} :
    Meets (withMemory dev) (onDev H) storeRxByte Q s ↔
      ∀ byte e, dev s.dev (.getreg8 .drr) byte e → H s.dev e ∧
        Q () ⟨{ s.mem with
            bufs := fun j p => if j = i ∧ (p : ℤ) = s.mem.rxPos then byte else s.mem.bufs j p
            rxPos := s.mem.rxPos + 1 }, s.trace ++ [.store i s.mem.rxPos byte], e⟩ := by
  obtain ⟨⟨txMsg, txPos, nmsgs, state, rxMsg, rxPos, endianness, msgs, bufs⟩, trace, e⟩ := s
  obtain rfl : rxMsg = some i := hp
  simp only [storeRxByte, meets_bind, meets_dev_getreg8, meets_get, Config.withDev_mem,
    meets_onDev_note, meets_onDev_set]
  rfl

end Pointers

section FillLoop

variable {i : ℕ} {m : I2cMsg}

/-- The bytes that one call of `xiic_fill_tx_fifo` writes when `TFO` reads `v`. -/
def fillCount (d : XiicI2c) (m : I2cMsg) (v : BitVec 8) : ℕ :=
  min (m.len.toNat - d.txPos) (u8 (16 - v.toNat - 1))

/-- The fill loop writes as many bytes as the message and the FIFO allow. -/
theorem meets_dev_fillTxFifo {J : BitVec 8 → ℕ → Sys δ → Prop} {Q : Unit → Sys δ → Prop}
    (hp : s.mem.txMsg = some i) (hm : s.mem.msgs[i]? = some m)
    (hpos : s.mem.txPos ≤ m.len.toNat)
    (hread : ∀ v e, dev s.dev (.getreg8 .tfo) v e → H s.dev e ∧
      J v 0 ((s.withDev e).noted (.txSpace m.len.toNat s.mem.txPos)))
    (hstep : ∀ v k t, k < fillCount s.mem m v → J v k t →
      Meets (withMemory dev) (onDev H) fillTxWord (fun _ => J v (k + 1)) t)
    (hend : ∀ v t, J v (fillCount s.mem m v) t → Q () t) :
    Meets (withMemory dev) (onDev H) xiicFillTxFifo Q s := by
  have hlen := len_lt m
  simp only [xiicFillTxFifo, meets_bind, meets_dev_txFifoSpace]
  intro v e he
  obtain ⟨hH, h0⟩ := hread v e he
  refine ⟨hH, (meets_dev_txSpace (s := s.withDev e) hp hm).mpr ?_⟩
  simp only [Config.withDev_mem, u32_sub hlen hpos]
  have hs : s32 (m.len.toNat - s.mem.txPos) = ((m.len.toNat - s.mem.txPos : ℕ) : ℤ) := by
    simp only [s32]
    omega
  obtain ⟨n, hn, hcount⟩ : ∃ n : ℕ, n = fillCount s.mem m v ∧
      (if s32 (m.len.toNat - s.mem.txPos) > u8 (16 - v.toNat - 1) then
        (u8 (16 - v.toNat - 1) : ℤ) else s32 (m.len.toNat - s.mem.txPos)) = n := by
    refine ⟨_, rfl, ?_⟩
    rw [hs, fillCount]
    split <;> omega
  rw [hcount]
  refine meets_iterate (fun len t => ∃ k : ℕ, len = (n : ℤ) - k ∧ k ≤ n ∧ J v k t)
    ⟨0, by simp, by omega, h0⟩ ?_
  rintro len t ⟨k, rfl, hk, hJ⟩
  simp only [meets_bind, meets_ite, meets_pure]
  constructor
  · intro hzero
    obtain rfl : k = n := by omega
    exact hend v t (hn ▸ hJ)
  · intro hne
    refine (hstep v k t (by omega) hJ).imp ?_
    intro _ t' hJ'
    exact ⟨k + 1, by push_cast; ring, by omega, hJ'⟩

end FillLoop

section ReadLoop

variable {j : ℕ} {r : I2cMsg}

/-- The bytes that one call of `xiic_read_rx` takes when `RFO` reads `v`. -/
def readCount (r : I2cMsg) (n : ℕ) (v : BitVec 8) : ℕ :=
  min (r.len.toNat - n) ((v.toNat + 1) % 256)

/-- The value that `xiic_read_rx` writes to `RFD` with `space` bytes missing. -/
def rfdValue (space : ℤ) : BitVec 8 :=
  if space > rxFifoDepth then BitVec.ofNat 8 (rxFifoDepth - 1) else BitVec.ofInt 8 (space - 1)

/-- The read loop takes as many bytes as the message and the FIFO have. -/
theorem meets_dev_readRx {J : BitVec 8 → ℕ → Sys δ → Prop} {Q : Unit → Sys δ → Prop} {n : ℕ}
    (hp : s.mem.rxMsg = some j) (hm : s.mem.msgs[j]? = some r) (hpos : s.mem.rxPos = n)
    (hle : n ≤ r.len.toNat)
    (hread : ∀ v e, dev s.dev (.getreg8 .rfo) v e → H s.dev e ∧
      J v 0 ((s.withDev e).noted (.rxSpace r.len.toNat n)))
    (hstep : ∀ v k t, k < readCount r n v → J v k t →
      Meets (withMemory dev) (onDev H) storeRxByte (fun _ => J v (k + 1)) t)
    (hend : ∀ v t, J v (readCount r n v) t → Meets (withMemory dev) (onDev H) (do
      let space ← xiicRxSpace
      xiicSetreg8 .rfd (rfdValue space)) Q t) :
    Meets (withMemory dev) (onDev H) xiicReadRx Q s := by
  have hlen := len_lt r
  simp only [xiicReadRx, meets_bind, meets_dev_getreg8]
  intro (v : BitVec 8) e he
  obtain ⟨hH, h0⟩ := hread v e he
  refine ⟨hH, (meets_dev_rxSpace (s := s.withDev e) hp hm).mpr ?_⟩
  rw [Config.withDev_mem, hpos]
  have hcount : (if (u8 (v.toNat + 1) : ℤ) > r.len.toNat - (n : ℤ) then
      u8 (r.len.toNat - (n : ℤ)) else u8 (v.toNat + 1)) = readCount r n v := by
    by_cases hmore : (u8 (v.toNat + 1) : ℤ) > r.len.toNat - (n : ℤ)
    · rw [if_pos hmore]
      simp only [readCount, u8] at *
      omega
    · rw [if_neg hmore]
      simp only [readCount, u8] at *
      omega
  refine meets_iterate (fun k t => k ≤ readCount r n v ∧ J v k t) ⟨Nat.zero_le _, h0⟩ ?_
  rintro k t ⟨hk, hJ⟩
  simp only [hcount, meets_bind, meets_ite, meets_pure]
  constructor
  · intro hlt
    refine (hstep v k t hlt hJ).imp ?_
    intro _ t' hJ'
    exact ⟨hlt, hJ'⟩
  · intro hnot
    obtain rfl : k = readCount r n v := by omega
    exact (meets_bind _ _).mp (hend v t hJ)

end ReadLoop

section Ports

/-- The port does not write a word. -/
def Port.NoWord : Port → Prop
  | .setreg16 .. => False
  | _ => True

variable {quiet : Port → Prop}

theorem uses_getreg8 {reg : Reg} (h : quiet (.getreg8 reg)) : UsesPorts quiet (xiicGetreg8 reg) :=
  .port h

theorem uses_getreg32 {reg : Reg} (h : quiet (.getreg32 reg)) :
    UsesPorts quiet (xiicGetreg32 reg) :=
  .port h

theorem uses_setreg8 {reg : Reg} {v : BitVec 8} (h : quiet (.setreg8 reg v)) :
    UsesPorts quiet (xiicSetreg8 reg v) :=
  .port h

theorem uses_setreg32 {reg : Reg} {v : BitVec 32} (h : quiet (.setreg32 reg v)) :
    UsesPorts quiet (xiicSetreg32 reg v) :=
  .port h

theorem uses_setreg16 {reg : Reg} {v : BitVec 16} (h : quiet (.setreg16 reg v)) :
    UsesPorts quiet (xiicSetreg16 reg v) :=
  .bind (.port h) fun _ => .note _

theorem uses_deref (p : Option ℕ) : UsesPorts quiet (deref p) := by
  refine .bind .get fun d => ?_
  split
  · exact .pure _
  · exact .bind (.note _) fun _ => .pure _

theorem uses_txSpace : UsesPorts quiet xiicTxSpace :=
  .bind .get fun _ => .bind (uses_deref _) fun _ => .bind (.note _) fun _ => .pure _

theorem uses_rxSpace : UsesPorts quiet xiicRxSpace :=
  .bind .get fun _ => .bind (uses_deref _) fun _ => .bind (.note _) fun _ => .pure _

theorem uses_modify (f : XiicI2c → XiicI2c) : UsesPorts quiet (modify f : Xiic Unit) :=
  .bind .get fun _ => .set _

theorem uses_wakeup (code : XilinxI2cState) : UsesPorts quiet (xiicWakeup code) :=
  .bind (uses_modify _) fun _ => .note _

theorem uses_txFifoSpace (h : quiet (.getreg8 .tfo)) : UsesPorts quiet xiicTxFifoSpace :=
  .bind (uses_getreg8 h) fun _ => .pure _

theorem uses_irqClr (hget : quiet (.getreg32 .iisr)) (hset : ∀ v, quiet (.setreg32 .iisr v))
    (mask : BitVec 32) : UsesPorts quiet (xiicIrqClr mask) :=
  .bind (uses_getreg32 hget) fun _ => uses_setreg32 (hset _)

theorem uses_fillTxFifo (htfo : quiet (.getreg8 .tfo)) (hdtr : ∀ v, quiet (.setreg16 .dtr v)) :
    UsesPorts quiet xiicFillTxFifo := by
  have hload : UsesPorts quiet loadTxByte := by
    refine .bind .get fun d => ?_
    split
    · exact .bind (.note _) fun _ => .pure _
    · exact .bind (.note _) fun _ => .bind (.set _) fun _ => .pure _
  have hword : UsesPorts quiet fillTxWord :=
    .bind hload fun _ => .bind uses_txSpace fun _ => .bind .get fun _ => uses_setreg16 (hdtr _)
  refine .bind (uses_txFifoSpace htfo) fun _ => .bind uses_txSpace fun _ => .iterate fun len => ?_
  exact .ite (.pure _) (.bind hword fun _ => .pure _)

theorem uses_clearRxFifo (hsr : quiet (.getreg8 .sr)) (hdrr : quiet (.getreg8 .drr)) :
    UsesPorts quiet xiicClearRxFifo := by
  refine .iterate fun _ => .bind (uses_getreg8 hsr) fun _ => .ite (.pure _) ?_
  exact .bind (uses_getreg8 hdrr) fun _ => .pure _

theorem uses_readRx (hrfo : quiet (.getreg8 .rfo)) (hdrr : quiet (.getreg8 .drr))
    (hrfd : ∀ v, quiet (.setreg8 .rfd v)) : UsesPorts quiet xiicReadRx := by
  have hstore : UsesPorts quiet storeRxByte := by
    refine .bind (uses_getreg8 hdrr) fun _ => .bind .get fun d => ?_
    split
    · exact .note _
    · exact .bind (.note _) fun _ => .set _
  refine .bind (uses_getreg8 hrfo) fun _ => .bind uses_rxSpace fun _ => .bind (.iterate fun _ => ?_)
    fun _ => .bind uses_rxSpace fun _ => uses_setreg8 (hrfd _)
  exact .ite (.bind hstore fun _ => .pure _) (.pure _)

end Ports

end PynqPrio.Iic
