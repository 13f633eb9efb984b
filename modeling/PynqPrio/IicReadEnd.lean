import PynqPrio.IicInterruptEnables
import PynqPrio.IicReads

/-!
# A device at the end of a read

The device works by itself, also in the middle of a run of the driver: it drains its TX FIFO
and, once it has got to the command of a read, takes bytes from the bus into its RX FIFO and
raises RX_FULL, TX_ERROR for the negative acknowledge of the last byte, and then BNB.
-/
namespace PynqPrio.Iic
open Programs Programs.Driver Programs.Prog

/-- The registers behind a read, with the bytes that are still to arrive. `reading` says that
the device has got to the command of the read, `nacked` and `stopped` that TX_ERROR and BNB
have been raised for its end, `full` that RX_FULL has been for the last bytes. -/
structure ReadEndRegs where
  level : ℕ
  fifo : List (BitVec 8)
  coming : List (BitVec 8)
  rfd : ℕ
  txError : Bool
  rxFull : Bool
  bnb : Bool
  iier : BitVec 32
  reading : Bool
  nacked : Bool
  full : Bool
  stopped : Bool

/-- The word has the interrupt exactly if it is raised. -/
def Shows (v mask : BitVec 32) (raised : Bool) : Prop := v &&& mask ≠ 0 ↔ raised = true

namespace ReadEndRegs

/-- The interrupts whose bit is set in the word are flipped. -/
def flip (e : ReadEndRegs) (v : BitVec 32) : ReadEndRegs :=
  { e with
    txError := xor (v &&& intrTxErrorMask != 0) e.txError
    rxFull := xor (v &&& intrRxFullMask != 0) e.rxFull
    bnb := xor (v &&& intrBnbMask != 0) e.bnb }

/-- The bytes that are still to arrive belong to the bus. -/
def reset (e : ReadEndRegs) : ReadEndRegs :=
  { e with
    level := 0, fifo := [], rfd := 0, txError := false, rxFull := false, bnb := false, iier := 0,
    reading := false }

/-- An access of the driver. `IISR` is toggled by writes and shows no lost arbitration; its
other bits and the other registers read anything. -/
def access : ReadEndRegs → (p : Port) → Port.Res p → ReadEndRegs → Prop
  | e, .getreg32 .iisr, v, e' =>
      (Shows v intrArbLostMask false ∧ Shows v intrTxErrorMask e.txError ∧
        Shows v intrRxFullMask e.rxFull ∧ Shows v intrBnbMask e.bnb) ∧ e' = e
  | e, .setreg32 .iisr v, _, e' => e' = e.flip v
  | e, .getreg32 .iier, v, e' => v = e.iier ∧ e' = e
  | e, .setreg32 .iier v, _, e' => e' = { e with iier := v }
  | e, .getreg8 .tfo, v, e' => v.toNat = e.level - 1 ∧ e' = e
  | e, .setreg16 .dtr _, _, e' => e' = { e with level := e.level + 1 }
  | e, .getreg8 .rfo, v, e' => v = BitVec.ofNat 8 (e.fifo.length - 1) ∧ e' = e
  | e, .getreg8 .sr, v, e' => (v &&& srRxFifoEmptyMask ≠ 0 ↔ e.fifo = []) ∧ e' = e
  | e, .getreg8 .drr, v, e' => match e.fifo with
      | [] => e' = e
      | b :: rest => v = b ∧ e' = { e with fifo := rest }
  | e, .setreg8 .rfd v, _, e' => e' = { e with rfd := v.toNat }
  | e, .setreg32 .resetr _, _, e' => e' = e.reset
  | e, _, _, e' => e' = e

/-- What the device does by itself. RX_FULL is raised while the FIFO holds one byte more than
`RFD` says; the last byte is not acknowledged, and the bus is free after that. -/
inductive Step : ReadEndRegs → ReadEndRegs → Prop where
  | drain {e : ReadEndRegs} {l : ℕ} (less : l ≤ e.level) : Step e { e with level := l }
  | arrive {e : ReadEndRegs} {b : BitVec 8} {rest : List (BitVec 8)} (reading : e.reading = true)
      (coming : e.coming = b :: rest) (room : e.fifo.length < 16) :
      Step e { e with fifo := e.fifo ++ [b], coming := rest }
  | rxFull {e : ReadEndRegs} (reading : e.reading = true) (length : e.fifo.length = e.rfd + 1) :
      Step e { e with rxFull := true, full := e.full || e.coming.isEmpty }
  | txError {e : ReadEndRegs} (reading : e.reading = true) (coming : e.coming = [])
      (first : e.nacked = false) : Step e { e with txError := true, nacked := true }
  | bnb {e : ReadEndRegs} (reading : e.reading = true) (nacked : e.nacked = true)
      (full : e.full = true) (first : e.stopped = false) :
      Step e { e with bnb := true, stopped := true }

abbrev Works : ReadEndRegs → ReadEndRegs → Prop := Relation.ReflTransGen Step

end ReadEndRegs

/-- The device works on after every access. -/
def readEnd : Machine Port Port.Res ReadEndRegs :=
  fun e p v e' => ∃ e₁, e.access p v e₁ ∧ e₁.Works e'

/-- Nothing but the level of the TX FIFO has changed, which is no higher. -/
def Drained (e e' : ReadEndRegs) : Prop := ∃ l ≤ e.level, e' = { e with level := l }

namespace ReadEndRegs

/-- No interrupt is raised, and none will be before the device gets to the read. -/
structure Quiet (e : ReadEndRegs) : Prop where
  txError : e.txError = false
  rxFull : e.rxFull = false
  bnb : e.bnb = false
  reading : e.reading = false

/-- Before it gets to the read the device only drains its TX FIFO. -/
theorem Works.drained {e e' : ReadEndRegs} (h : e.Works e') (hr : e.reading = false) :
    Drained e e' := by
  induction h with
  | refl => exact ⟨e.level, le_rfl, rfl⟩
  | tail _ hstep ih =>
    obtain ⟨l, hl, rfl⟩ := ih
    cases hstep with
    | drain hless => exact ⟨_, le_trans hless hl, rfl⟩
    | arrive hreading => exact absurd (hr.symm.trans hreading) nofun
    | rxFull hreading => exact absurd (hr.symm.trans hreading) nofun
    | txError hreading => exact absurd (hr.symm.trans hreading) nofun
    | bnb hreading => exact absurd (hr.symm.trans hreading) nofun

end ReadEndRegs

section Accesses

variable {s : Sys ReadEndRegs}

abbrev Yields {α : Type} (p : Xiic α) (Q : α → Sys ReadEndRegs → Prop) (s : Sys ReadEndRegs) :
    Prop :=
  Meets (withMemory readEnd) (onDev anyAccess) p Q s

/-- Nothing is cleared while no interrupt is raised. -/
theorem yields_irqClr (hq : s.dev.Quiet) (mask : BitVec 32) :
    Yields (xiicIrqClr mask) (fun _ t => t.mem = s.mem ∧ Drained s.dev t.dev) s := by
  simp only [xiicIrqClr, meets_bind, meets_dev_getreg32, meets_dev_setreg32]
  rintro isr _ ⟨_, ⟨⟨-, herr, hfull, hbnb⟩, rfl⟩, hworks⟩
  obtain ⟨l, hl, rfl⟩ := hworks.drained hq.reading
  refine ⟨trivial, ?_⟩
  rintro _ ⟨_, rfl, hworks⟩
  obtain ⟨l', hl', rfl⟩ := hworks.drained hq.reading
  have hclear : ∀ m, isr &&& m = 0 → (isr &&& mask &&& m != 0) = false := by
    intro m hm
    have hzero : isr &&& mask &&& m = 0 := by
      rw [BitVec.and_assoc, BitVec.and_comm mask, ← BitVec.and_assoc, hm]
      exact BitVec.zero_and
    simpa using hzero
  refine ⟨trivial, rfl, l', le_trans hl' hl, ?_⟩
  have herr' : isr &&& intrTxErrorMask = 0 := by
    by_contra hne
    exact absurd (hq.txError.symm.trans (herr.mp hne)) nofun
  have hfull' : isr &&& intrRxFullMask = 0 := by
    by_contra hne
    exact absurd (hq.rxFull.symm.trans (hfull.mp hne)) nofun
  have hbnb' : isr &&& intrBnbMask = 0 := by
    by_contra hne
    exact absurd (hq.bnb.symm.trans (hbnb.mp hne)) nofun
  simp only [ReadEndRegs.flip, Config.withDev_dev, hclear _ herr', hclear _ hfull', hclear _ hbnb',
    Bool.false_xor]

theorem yields_irqClrEn (hq : s.dev.Quiet) (mask : BitVec 32) :
    Yields (xiicIrqClrEn mask) (fun _ t => t.mem = s.mem ∧
      Drained { s.dev with iier := s.dev.iier ||| mask } t.dev) s := by
  refine (meets_bind _ _).mpr ((yields_irqClr hq mask).imp ?_)
  rintro _ t ⟨hmem, l, hl, hdev⟩
  have hr : t.dev.reading = false := by
    rw [hdev]
    exact hq.reading
  simp only [xiicIrqEn, meets_bind, meets_dev_getreg32, meets_dev_setreg32]
  rintro _ _ ⟨_, ⟨rfl, rfl⟩, hworks⟩
  obtain ⟨l', hl', rfl⟩ := hworks.drained hr
  refine ⟨trivial, ?_⟩
  rintro _ ⟨_, rfl, hworks⟩
  obtain ⟨l'', hl'', rfl⟩ := hworks.drained hr
  refine ⟨trivial, hmem, l'', le_trans hl'' (le_trans hl' (by rw [hdev]; exact hl)), ?_⟩
  simp only [Config.withDev_dev, hdev]

end Accesses

section Starts

/-- Words have been written, and interrupts enabled. -/
def Wrote (e e' : ReadEndRegs) : Prop := ∃ l ier, e' = { e with level := l, iier := ier }

/-- A read has been asked for: the threshold is set and its interrupts are enabled. -/
def Asked (m : I2cMsg) (e e' : ReadEndRegs) : Prop :=
  ∃ l ier, e' = { e with level := l, iier := ier ||| recvMask, rfd := min m.len.toNat 16 - 1 }

theorem Wrote.trans {e e' e'' : ReadEndRegs} (h : Wrote e e') (h' : Wrote e' e'') : Wrote e e'' := by
  obtain ⟨l, ier, rfl⟩ := h
  obtain ⟨l', ier', rfl⟩ := h'
  exact ⟨l', ier', rfl⟩

theorem Wrote.asked {m : I2cMsg} {e e' e'' : ReadEndRegs} (h : Wrote e e') (h' : Asked m e' e'') :
    Asked m e e'' := by
  obtain ⟨l, ier, rfl⟩ := h
  obtain ⟨l', ier', rfl⟩ := h'
  exact ⟨l', ier', rfl⟩

theorem Wrote.quiet {e e' : ReadEndRegs} (h : Wrote e e') (hq : e.Quiet) : e'.Quiet := by
  obtain ⟨l, ier, rfl⟩ := h
  exact ⟨hq.txError, hq.rxFull, hq.bnb, hq.reading⟩

variable {x : Transfer} {s : Sys ReadEndRegs} {i : ℕ} {m : I2cMsg}

theorem yields_word (hr : s.dev.reading = false) (v : BitVec 16) : Yields (xiicSetreg16 .dtr v)
    (fun _ t => t.mem = s.mem ∧ ∃ l, t.dev = { s.dev with level := l }) s := by
  refine (meets_dev_setreg16 _ _).mpr ?_
  rintro _ ⟨_, rfl, hworks⟩
  obtain ⟨l, -, rfl⟩ := hworks.drained hr
  exact ⟨trivial, rfl, l, rfl⟩

theorem yields_fillTxFifo (hr : s.dev.reading = false) (hp : s.mem.txMsg = some i) (hm : s.mem.msgs[i]? = some m)
    (hpos : s.mem.txPos ≤ m.len.toNat) : Yields xiicFillTxFifo (fun _ t =>
      (∃ p, s.mem.txPos ≤ p ∧ p ≤ m.len.toNat ∧ t.mem = { s.mem with txPos := p }) ∧
      ∃ l, t.dev = { s.dev with level := l }) s := by
  refine meets_dev_fillTxFifo (J := fun _ k t =>
    t.mem = { s.mem with txPos := s.mem.txPos + k } ∧ ∃ l, t.dev = { s.dev with level := l })
    hp hm hpos ?_ ?_ ?_
  · rintro _ _ ⟨_, ⟨-, rfl⟩, hworks⟩
    obtain ⟨l, -, rfl⟩ := hworks.drained hr
    exact ⟨trivial, rfl, l, rfl⟩
  · rintro v k t hk ⟨hmem, l, hdev⟩
    have hfit : k < m.len.toNat - s.mem.txPos := lt_of_lt_of_le hk (Nat.min_le_left _ _)
    refine (meets_dev_fillTxWord (i := i) (m := m) (by rw [hmem]; exact hp) (by rw [hmem]; exact hm)
      (by rw [hmem]; simp only; omega)).mpr ?_
    rintro _ ⟨_, rfl, hworks⟩
    obtain ⟨l', -, rfl⟩ := hworks.drained (show t.dev.reading = false from hdev ▸ hr)
    refine ⟨trivial, ?_, l', ?_⟩
    · rw [hmem]
      rfl
    · simp only [hdev]
  · rintro v t ⟨hmem, l, hdev⟩
    refine ⟨⟨_, Nat.le_add_right _ _, ?_, hmem⟩, l, hdev⟩
    rw [fillCount]
    omega

theorem yields_startSend (h : At x s.mem i m) (hpos : s.mem.txPos ≤ m.len.toNat)
    (hq : s.dev.Quiet) : Yields xiicStartSend (fun _ t =>
      (∃ p, p ≤ m.len.toNat ∧ t.mem = { s.mem with txPos := p }) ∧ Wrote s.dev t.dev) s := by
  have hfill : ∀ t : Sys ReadEndRegs, t.mem = s.mem → Wrote s.dev t.dev → Yields (do
        xiicFillTxFifo
        xiicIrqClrEn sendMask) (fun _ u =>
      (∃ p, p ≤ m.len.toNat ∧ u.mem = { s.mem with txPos := p }) ∧ Wrote s.dev u.dev) t := by
    intro t hmem ht
    refine (meets_bind _ _).mpr ((yields_fillTxFifo (i := i) (m := m) (ht.quiet hq).reading
      (hmem ▸ h.txMsg) (hmem ▸ h.get) (hmem ▸ hpos)).imp ?_)
    rintro _ u ⟨⟨p, -, hp, humem⟩, l, hu⟩
    have hwrote : Wrote s.dev u.dev := ht.trans ⟨l, t.dev.iier, hu⟩
    refine (yields_irqClrEn (hwrote.quiet hq) _).imp ?_
    rintro _ v ⟨hvmem, l', -, hv⟩
    exact ⟨⟨p, hp, by rw [hvmem, humem, hmem]⟩, hwrote.trans ⟨l', _, hv⟩⟩
  refine (meets_bind _ _).mpr (meets_get.mpr ((meets_bind _ _).mpr ?_))
  refine (meets_dev_deref (i := i) (m := m) h.txMsg h.get).mpr ?_
  refine (meets_bind _ _).mpr ((yields_irqClr hq _).imp ?_)
  rintro _ t ⟨hmem, l, -, ht⟩
  have hwrote : Wrote s.dev t.dev := ⟨l, s.dev.iier, ht⟩
  refine (meets_ite _ _ _).mpr ⟨fun _ => ?_, fun _ => hfill t hmem hwrote⟩
  refine (meets_bind _ _).mpr ((yields_word (hwrote.quiet hq).reading _).imp ?_)
  rintro _ u ⟨humem, l, hu⟩
  exact hfill u (humem.trans hmem) (hwrote.trans ⟨l, t.dev.iier, hu⟩)

theorem yields_startRecv (h : At x s.mem i m) (hlen : 1 ≤ m.len.toNat ∧ m.len.toNat ≤ 255)
    (hq : s.dev.Quiet) : Yields xiicStartRecv (fun _ t =>
      t.mem = { s.mem with rxMsg := some i, txPos := m.len.toNat } ∧ Asked m s.dev t.dev) s := by
  refine (meets_with_core (Q := fun _ t => Asked m s.dev t.dev) ?_ (startRecv_mem h)).imp
    fun _ t ht => ⟨ht.2, ht.1⟩
  have hquiet : ∀ {e : ReadEndRegs} {l rfd ier}, e = { s.dev with
      level := l, iier := ier, rfd := rfd } → e.Quiet := by
    rintro _ l rfd ier rfl
    exact ⟨hq.txError, hq.rxFull, hq.bnb, hq.reading⟩
  -- the interrupts of the first step, and the threshold
  have hend : ∀ (u : Sys ReadEndRegs) (l : ℕ) (ier : BitVec 32), u.dev = { s.dev with
        level := l, iier := ier ||| (intrRxFullMask ||| intrTxErrorMask),
        rfd := min m.len.toNat 16 - 1 } → Yields (do
      xiicIrqClrEn intrBnbMask
      let d ← get
      xiicSetreg16 .dtr (m.len ||| if d.nmsgs = 1 then txDynStopMask else 0)
      if d.nmsgs = 1 then xiicIrqClrEn intrBnbMask
      modify fun d => { d with txPos := m.len.toNat }) (fun _ v => Asked m s.dev v.dev) u := by
    intro u l ier hu
    refine (meets_bind _ _).mpr ((yields_irqClrEn (hquiet hu) _).imp ?_)
    rintro _ v ⟨-, l', -, hv⟩
    rw [hu] at hv
    refine (meets_bind _ _).mpr (meets_get.mpr ((meets_bind _ _).mpr
      ((yields_word (hquiet hv).reading _).imp ?_)))
    rintro _ w ⟨-, l'', hw⟩
    rw [hv] at hw
    refine (meets_ite _ _ _).mpr ⟨fun _ => ?_, fun _ => ?_⟩
    · refine (meets_bind _ _).mpr ((yields_irqClrEn (hquiet hw) _).imp ?_)
      rintro _ y ⟨-, l₃, -, hy⟩
      rw [hw] at hy
      refine (meets_onDev_modify _).mpr ⟨l₃, ier, ?_⟩
      rw [Config.withMem_dev, hy, recvMask]
      simp only [BitVec.or_assoc, BitVec.or_self]
    · refine (meets_onDev_modify _).mpr ⟨l'', ier, ?_⟩
      rw [Config.withMem_dev, hw, recvMask]
      simp only [BitVec.or_assoc]
  rw [xiicStartRecv, meets_bind, meets_onDev_modify, meets_bind, meets_get, meets_bind]
  refine (meets_dev_deref (i := i) (m := m) (by exact h.txMsg) (by exact h.get)).mpr ?_
  refine (meets_bind _ _).mpr ((yields_irqClrEn (by exact hq) _).imp ?_)
  rintro _ t ⟨-, l, -, ht⟩
  refine (meets_bind _ _).mpr ((meets_dev_setreg8 _ _).mpr ?_)
  rintro _ ⟨_, rfl, hworks⟩
  have hr : t.dev.reading = false := by
    rw [ht]
    exact hq.reading
  obtain ⟨l', -, rfl⟩ := hworks.drained hr
  have hrfd : (recvThreshold m).toNat = min m.len.toNat 16 - 1 :=
    recvThreshold_toNat m hlen.1 hlen.2
  refine ⟨trivial, (meets_ite _ _ _).mpr ⟨fun _ => ?_, fun _ => hend _ l' s.dev.iier ?_⟩⟩
  · refine (meets_bind _ _).mpr ((yields_word (by exact hr) _).imp ?_)
    rintro _ u ⟨-, l'', hu⟩
    refine hend u l'' s.dev.iier ?_
    rw [hu, ← hrfd, ht]
    rfl
  · rw [Config.withDev_dev, ← hrfd, ht]
    rfl

end Starts

section Loop

/-- The only read of the transfer is its last message, of one to 255 bytes. -/
structure LastRead (x : Transfer) (r : I2cMsg) : Prop where
  last : x.msgs[x.msgs.length - 1]? = some r
  read : r.IsRead
  writes : ∀ i m, x.msgs[i]? = some m → i + 1 < x.msgs.length → ¬m.IsRead
  len : 1 ≤ r.len.toNat ∧ r.len.toNat ≤ 255

def AtWrite (x : Transfer) (e : ReadEndRegs) (t : Sys ReadEndRegs) : Prop :=
  ∃ i m, Live x t.mem i m ∧ ¬m.IsRead ∧ t.mem.rxMsg = none ∧ Wrote e t.dev

def AtRead (x : Transfer) (r : I2cMsg) (e : ReadEndRegs) (t : Sys ReadEndRegs) : Prop :=
  ∃ i, Live x t.mem i r ∧ t.mem.rxMsg = some i ∧ t.mem.rxPos = 0 ∧ t.mem.txPos = r.len.toNat ∧
    Asked r e t.dev

variable {x : Transfer} {r : I2cMsg} {s : Sys ReadEndRegs} {i : ℕ} {m : I2cMsg}

theorem LastRead.eq_last (hx : LastRead x r) {d : XiicI2c} (h : At x d i m) (hread : m.IsRead) :
    i = x.msgs.length - 1 := by
  by_contra hne
  have hlt := h.lt
  exact hx.writes i m h.msg (by omega) hread

theorem LastRead.eq_of_read (hx : LastRead x r) {d : XiicI2c} (h : At x d i m) (hread : m.IsRead) :
    m = r := by
  have hi := hx.eq_last h hread
  exact Option.some.inj ((hi ▸ h.msg).symm.trans hx.last)

/-- The state of the start loop: the first message has room, or a write has been started. -/
def Starts (x : Transfer) (e : ReadEndRegs) (st : Bool × ℤ) (t : Sys ReadEndRegs) : Prop :=
  ∃ i m, Live x t.mem i m ∧ t.mem.rxMsg = none ∧ t.mem.rxPos = 0 ∧ Wrote e t.dev ∧
    (st.1 = true → t.mem.txPos = 0 ∧ 2 ≤ st.2) ∧ (st.1 = false → ¬m.IsRead)

theorem yields_startCurrent (hx : LastRead x r) (h : Live x s.mem i m) (hrx : s.mem.rxMsg = none)
    (h0 : s.mem.rxPos = 0) (hq : s.dev.Quiet) : Yields startCurrent (fun q t => match q with
      | .inl st => st.1 = false ∧ Starts x s.dev st t
      | .inr returned => if returned = true then AtRead x r s.dev t else AtWrite x s.dev t) s := by
  rw [Yields, startCurrent, meets_bind, meets_get, meets_bind]
  refine (meets_dev_deref (s := s) (i := i) (m := m) h.txMsg h.toAt.get).mpr ?_
  refine (meets_ite _ _ _).mpr ⟨fun hread => ?_, fun hwrite => ?_⟩
  · obtain rfl := hx.eq_of_read h.toAt hread
    refine (meets_bind _ _).mpr ((yields_startRecv h.toAt hx.len hq).imp ?_)
    rintro _ t ⟨hmem, hasked⟩
    refine (meets_pure _).mpr ⟨i, ?_, by rw [hmem], by rw [hmem]; exact h0, by rw [hmem], hasked⟩
    rw [hmem]
    refine ⟨⟨h.msgs, h.txMsg, h.msg, h.nmsgs, ?_⟩, le_rfl, ?_, h.state⟩
    · intro j hj
      obtain rfl : i = j := Option.some.inj hj
      exact ⟨le_rfl, _, h.msg, hread⟩
    · intro j q _ _
      simp [h0]
  · refine (meets_bind _ _).mpr ((yields_startSend h.toAt h.txPos hq).imp ?_)
    rintro _ t ⟨⟨p, hp, hmem⟩, hwrote⟩
    have hlive : Live x t.mem i m := hmem ▸ h.setTxPos hp
    have hnone : t.mem.rxMsg = none := by rw [hmem]; exact hrx
    refine (meets_bind _ _).mpr ((meets_dev_txSpace hlive.txMsg hlive.toAt.get).mpr ?_)
    refine (meets_ite _ _ _).mpr ⟨fun _ => (meets_pure _).mpr ?_, fun _ => ?_⟩
    · exact ⟨i, m, hlive, hwrite, hnone, hwrote⟩
    · refine (meets_bind _ _).mpr (meets_dev_txFifoSpace.mpr ?_)
      rintro _ _ ⟨_, ⟨-, rfl⟩, hworks⟩
      obtain ⟨l, -, rfl⟩ := hworks.drained (hwrote.quiet hq).reading
      refine ⟨trivial, (meets_pure _).mpr ⟨rfl, i, m, hlive, hnone, ?_, ?_, by simp,
        fun _ => hwrite⟩⟩
      · rw [Config.withDev_mem, Config.noted_mem, hmem]
        exact h0
      · exact hwrote.trans ⟨l, t.dev.iier, rfl⟩

theorem yields_startXferBody {e : ReadEndRegs} {st : Bool × ℤ} (hx : LastRead x r) (he : e.Quiet)
    (h : Starts x e st s) : Yields (startXferBody st.1 st.2) (fun q t => match q with
      | .inl st' => Starts x e st' t
      | .inr returned => if returned = true then AtRead x r e t else AtWrite x e t) s := by
  obtain ⟨i, m, hlive, hrx, h0, hwrote, hfirst, hlater⟩ := h
  have hcurrent : ∀ (t : Sys ReadEndRegs) (j : ℕ) (m' : I2cMsg), t.dev = s.dev →
      Live x t.mem j m' → t.mem.rxMsg = none → t.mem.rxPos = 0 →
      Yields startCurrent (fun q u => match q with
        | .inl st' => Starts x e st' u
        | .inr returned => if returned = true then AtRead x r e u else AtWrite x e u) t := by
    intro t j m' hdev hlive' hrx' h0'
    have ht : Wrote e t.dev := hdev ▸ hwrote
    refine (yields_startCurrent hx hlive' hrx' h0' (ht.quiet he)).imp ?_
    rintro (st' | returned) u hu
    · obtain ⟨-, k, m'', hlive'', hrx'', h0'', hu, hu'⟩ := hu
      exact ⟨k, m'', hlive'', hrx'', h0'', ht.trans hu, hu'⟩
    · cases returned with
      | true =>
        obtain ⟨k, hlive'', hrx'', h0'', htx'', hu⟩ := hu
        exact ⟨k, hlive'', hrx'', h0'', htx'', ht.asked hu⟩
      | false =>
        obtain ⟨k, m'', hlive'', hwrite, hrx'', hu⟩ := hu
        exact ⟨k, m'', hlive'', hwrite, hrx'', ht.trans hu⟩
  rw [Yields, startXferBody, meets_bind, meets_get]
  refine (meets_ite _ _ _).mpr ⟨fun hc => (meets_ite _ _ _).mpr ⟨fun hst => ?_, fun _ => ?_⟩,
    fun hc => (meets_pure _).mpr ?_⟩
  · have hn : 1 < s.mem.nmsgs := by simpa [hst] using hc.2
    obtain ⟨m', h'⟩ := hlive.next hn
    rw [nextMsg, meets_bind, meets_onDev_modify, meets_bind, meets_onDev_modify]
    exact hcurrent _ (i + 1) m' rfl h' hrx h0
  · exact hcurrent s i m rfl hlive hrx h0
  · cases hst : st.1 with
    | true => exact absurd ⟨(hfirst hst).2, .inl hst⟩ hc
    | false => exact ⟨i, m, hlive, hlater hst, hrx, hwrote⟩

/-- With room in the TX FIFO writes are sent up to the read, which is then asked for. -/
theorem yields_startXferUnlocked (hx : LastRead x r) (h : At x s.mem i m)
    (hrx : s.mem.rxMsg = none) (hq : s.dev.Quiet) (hroom : s.dev.level ≤ 14) :
    Yields xiicStartXferUnlocked (fun _ t => AtRead x r s.dev t ∨ AtWrite x s.dev t) s := by
  rw [Yields, xiicStartXferUnlocked, meets_bind, meets_dev_txFifoSpace]
  rintro v _ ⟨_, ⟨hv, rfl⟩, hworks⟩
  obtain ⟨l, -, rfl⟩ := hworks.drained hq.reading
  refine ⟨trivial, ?_⟩
  rw [meets_bind, meets_get, Config.withDev_mem, h.txMsg]
  refine (meets_bind _ _).mpr ((meets_onDev_note _).mpr ((meets_bind _ _).mpr
    ((meets_onDev_modify _).mpr ((meets_bind _ _).mpr ?_))))
  refine (meets_iterate (Q := fun returned t =>
    if returned = true then AtRead x r s.dev t else AtWrite x s.dev t)
    (fun st t => Starts x s.dev st t) ?_ ?_).imp ?_
  · refine ⟨i, m, h.restart, hrx, rfl, ⟨l, s.dev.iier, rfl⟩, fun _ => ⟨rfl, ?_⟩, by simp⟩
    replace hv : v.toNat = s.dev.level - 1 := hv
    show (2 : ℤ) ≤ 16 - v.toNat - 1
    omega
  · intro st t ht
    refine (yields_startXferBody hx hq ht).imp ?_
    rintro (st' | returned) u hu
    · exact hu
    · exact hu
  · rintro returned u hu
    refine (meets_ite _ _ _).mpr ⟨fun hr => ?_, fun hr => (meets_pure _).mpr ?_⟩
    · rw [hr] at hu
      obtain ⟨j, m', hlive, hwrite, hrx', hwrote⟩ := hu
      -- the half-empty interrupt is cleared and enabled, which raises nothing
      have hhalf : ∀ t : Sys ReadEndRegs, t.mem = u.mem → t.dev = u.dev →
          Yields (xiicIrqClrEn intrTxHalfMask)
            (fun _ t => AtRead x r s.dev t ∨ AtWrite x s.dev t) t := by
        intro t hmem hdev
        have hwrote' : Wrote s.dev t.dev := hdev ▸ hwrote
        refine (yields_irqClrEn (hwrote'.quiet hq) _).imp ?_
        rintro _ v ⟨hvmem, l', -, hv⟩
        have hmem' : v.mem = u.mem := hvmem.trans hmem
        exact .inr ⟨j, m', hmem' ▸ hlive, hwrite, by rw [hmem']; exact hrx',
          hwrote'.trans ⟨l', _, hv⟩⟩
      refine (meets_bind _ _).mpr (meets_get.mpr ((meets_ite _ _ _).mpr ⟨fun _ => ?_, fun _ => ?_⟩))
      · exact (meets_bind _ _).mpr ((meets_pure _).mpr ((meets_ite _ _ _).mpr
          ⟨fun _ => hhalf u rfl rfl, fun hne => absurd Nat.one_ne_zero hne⟩))
      · refine (meets_bind _ _).mpr ((meets_dev_txSpace hlive.txMsg hlive.toAt.get).mpr ?_)
        refine (meets_ite _ _ _).mpr ⟨fun _ => hhalf _ rfl rfl, fun _ => (meets_pure _).mpr ?_⟩
        exact .inr ⟨j, m', hlive, hwrite, hrx', hwrote⟩
    · rw [if_pos (by simpa using hr)] at hu
      exact .inl hu

end Loop

section Start

/-- All bytes of the read are still to arrive. -/
structure ReadEndRegs.Unread (bytes : List (BitVec 8)) (e : ReadEndRegs) : Prop where
  reading : e.reading = false
  coming : e.coming = bytes
  nacked : e.nacked = false
  full : e.full = false
  stopped : e.stopped = false

/-- So they are, and the device has nothing to report. -/
structure ReadEndRegs.Waits (bytes : List (BitVec 8)) (e : ReadEndRegs) : Prop
    extends ReadEndRegs.Unread bytes e, ReadEndRegs.Quiet e where
  fifo : e.fifo = []

/-- The ports of the reset that leave an idle device as it is. -/
def Port.InReset : Port → Prop
  | .getreg8 .sr | .getreg8 .drr | .setreg8 .. | .setreg32 .dgier _ => True
  | _ => False

variable {x : Transfer} {r : I2cMsg} {s : Sys ReadEndRegs} {bytes : List (BitVec 8)}

theorem Wrote.waits {e e' : ReadEndRegs} (h : Wrote e e') (hw : e.Waits bytes) : e'.Waits bytes := by
  obtain ⟨l, ier, rfl⟩ := h
  exact ⟨⟨hw.reading, hw.coming, hw.nacked, hw.full, hw.stopped⟩, hw.txError, hw.rxFull, hw.bnb,
    hw.fifo⟩

theorem waits_of_inReset (p : Port) (e : ReadEndRegs) (v : Port.Res p) (e' : ReadEndRegs)
    (hp : p.InReset) (hw : e.Waits bytes ∧ e.level = 0) (h : readEnd e p v e') :
    e'.Waits bytes ∧ e'.level = 0 := by
  obtain ⟨e₁, haccess, hworks⟩ := h
  have hstays : ∀ {e₁ : ReadEndRegs} (rfd : ℕ), e₁ = { e with rfd := rfd } → e₁.Works e' →
      e'.Waits bytes ∧ e'.level = 0 := by
    rintro _ rfd rfl hworks
    obtain ⟨l, hl, rfl⟩ := hworks.drained hw.1.reading
    have hw₁ := hw.1
    refine ⟨⟨⟨hw₁.reading, hw₁.coming, hw₁.nacked, hw₁.full, hw₁.stopped⟩, hw₁.txError, hw₁.rxFull,
      hw₁.bnb, hw₁.fifo⟩, ?_⟩
    exact Nat.le_zero.mp (le_trans hl (le_of_eq hw.2))
  cases p with
  | getreg8 reg =>
    cases reg with
    | sr => exact hstays e.rfd haccess.2 hworks
    | drr =>
      simp only [ReadEndRegs.access, hw.1.fifo] at haccess
      exact hstays e.rfd haccess hworks
    | _ => exact hp.elim
  | setreg8 reg w =>
    cases reg with
    | rfd => exact hstays w.toNat haccess hworks
    | _ => exact hstays e.rfd haccess hworks
  | setreg16 reg w => exact hp.elim
  | getreg32 reg => exact hp.elim
  | setreg32 reg w =>
    cases reg with
    | dgier => exact hstays e.rfd haccess hworks
    | _ => exact hp.elim

theorem yields_reinit (h : s.dev.Unread bytes) :
    Yields xiicReinit (fun _ t => t.dev.Waits bytes ∧ t.dev.level = 0) s := by
  have hkeep : ∀ {α : Type} {p : Xiic α}, UsesPorts Port.InReset p → ∀ {t : Sys ReadEndRegs},
      t.dev.Waits bytes ∧ t.dev.level = 0 →
      Yields p (fun _ u => u.dev.Waits bytes ∧ u.dev.level = 0) t :=
    fun hp _ ht => hp.meets (I := fun e : ReadEndRegs => e.Waits bytes ∧ e.level = 0)
      (fun p e v e' hq hI he => ⟨trivial, waits_of_inReset p e v e' hq hI he⟩) ht
  refine (meets_bind _ _).mpr ((meets_onDev_note _).mpr ((meets_bind _ _).mpr
    ((meets_dev_setreg32 _ _).mpr ?_)))
  rintro _ ⟨_, rfl, hworks⟩
  obtain ⟨l, hl, rfl⟩ := hworks.drained rfl
  have hw : s.dev.reset.Waits bytes :=
    ⟨⟨rfl, h.coming, h.nacked, h.full, h.stopped⟩, rfl, rfl, rfl, rfl⟩
  refine ⟨trivial, (meets_bind _ _).mpr ((hkeep (uses_setreg8 trivial) ⟨?_, ?_⟩).imp fun _ t ht => ?_)⟩
  · exact Wrote.waits ⟨l, _, rfl⟩ hw
  · exact Nat.le_zero.mp hl
  refine (meets_bind _ _).mpr ((hkeep (uses_setreg8 trivial) ht).imp fun _ t ht => ?_)
  refine (meets_bind _ _).mpr ((hkeep (uses_setreg8 trivial) ht).imp fun _ t ht => ?_)
  refine (meets_bind _ _).mpr ((hkeep (uses_clearRxFifo trivial trivial) ht).imp fun _ t ht => ?_)
  refine (meets_bind _ _).mpr ((hkeep (@uses_setreg32 _ .dgier _ trivial) ht).imp
    fun _ t ht => ?_)
  refine (yields_irqClrEn ht.1.toQuiet _).imp ?_
  rintro _ u ⟨-, l', hl', hu⟩
  have hwrote : Wrote t.dev u.dev := ⟨l', _, hu⟩
  refine ⟨hwrote.waits ht.1, ?_⟩
  rw [hu]
  exact Nat.le_zero.mp (le_trans hl' (le_of_eq ht.2))

/-- The start of a transfer begins with a write, or asks for the read at once. -/
theorem yields_start (hx : LastRead x r) (h : Idle s.mem) (hdev : s.dev.Unread bytes) :
    Yields (startTransfer x.msgs x.bufs)
      (fun _ t => ∃ e, e.Waits bytes ∧ (AtRead x r e t ∨ AtWrite x e t)) s := by
  rw [Yields, startTransfer, assignTransfer, xiicStartXfer, meets_bind, meets_onDev_modify,
    meets_bind]
  have hcore : Meets anyDevice free xiicReinit (fun _ t => t.mem = assigned x s.mem)
      (s.withMem (assigned x s.mem)).core :=
    meets_reinit trivial rfl
  refine (meets_with_core (yields_reinit (s := s.withMem _) (by exact hdev)) hcore).imp ?_
  rintro _ t ⟨⟨hw, hlevel⟩, hmem⟩
  replace hmem : t.mem = assigned x s.mem := hmem
  have hrx : t.mem.rxMsg = none := by
    rw [hmem]
    exact h.rxMsg
  refine (yields_startXferUnlocked hx (hmem ▸ h.at_assigned) hrx hw.toQuiet (by omega)).imp ?_
  exact fun _ u hu => ⟨t.dev, hw, hu⟩

end Start

end PynqPrio.Iic
