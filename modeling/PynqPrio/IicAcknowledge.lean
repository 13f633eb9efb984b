import PynqPrio.IicRestarts

/-!
# The acknowledgement of the interrupts that a run has serviced

The word that ends a run of the interrupt thread is written to `IISR` without reading first:
it clears a bit that is still set, and sets one that the messages started in the same run have
cleared before. A bit is serviced only if it was set on entry, so all depends on what is
cleared in between.
-/
namespace PynqPrio.Iic
open Programs Programs.Driver Programs.Prog

section Branches

/-- The messages from the current one on. -/
def queue (d : XiicI2c) : List I2cMsg :=
  match d.txMsg with
  | none => []
  | some i => d.msgs.drop i

/-- The interrupts with a branch of their own, `TX_ERROR` and `ARB_LOST` apart. -/
def branchMask : BitVec 32 := intrRxFullMask ||| intrBnbMask ||| (intrTxEmptyMask ||| intrTxHalfMask)

def Resets (pend : BitVec 32) : Prop :=
  pend &&& intrArbLostMask ≠ 0 ∨ (pend &&& intrTxErrorMask ≠ 0 ∧ pend &&& intrRxFullMask = 0)

instance (pend : BitVec 32) : Decidable (Resets pend) :=
  inferInstanceAs (Decidable (_ ∨ _))

/-- The FIFO holds all that is missing of the outstanding read. -/
def ReadEnds (pend : BitVec 32) (d : XiicI2c) (rfo : BitVec 8) : Prop :=
  pend &&& intrRxFullMask ≠ 0 ∧
    ∃ r ∈ d.rxMsg.bind (d.msgs[·]?), (r.len.toNat : ℤ) - d.rxPos ≤ ((rfo.toNat + 1) % 256 : ℕ)

instance (pend : BitVec 32) (d : XiicI2c) (rfo : BitVec 8) : Decidable (ReadEnds pend d rfo) :=
  inferInstanceAs (Decidable (_ ∧ ∃ r ∈ _, _))

/-- What the TX branch clears: the next message is started if the rest of the current one fits
into the FIFO and leaves room. -/
def sentClears (tfo : ℕ → BitVec 8) : List I2cMsg → ℕ → ℕ → BitVec 32
  | [], _, _ => 0
  | m :: rest, pos, n =>
    if m.len.toNat - pos ≤ u8 (txRoom (tfo n)) ∧ 2 ≤ txRoom (tfo (n + 1)) then
      startClears tfo rest (n + 2)
    else 0

variable {x : Transfer} {s : Sys StatusRegs} {i : ℕ} {m : I2cMsg}

theorem queue_eq (h : Live x s.mem i m) : queue s.mem = x.msgs.drop i := by
  rw [queue, h.txMsg, h.msgs]

theorem gives_wakeup (code : XilinxI2cState) :
    Gives (xiicWakeup code) (fun _ t => Idle t.mem ∧ t.dev = s.dev) s := by
  rw [Gives, xiicWakeup, meets_bind, meets_onDev_modify, meets_onDev_note]
  exact ⟨⟨rfl, rfl, rfl⟩, rfl⟩

/-- The error branch resets the device and ends the transfer, or does nothing. -/
theorem gives_processError (h : Cursor x s.mem) (pend : BitVec 32) :
    Gives (processError pend) (fun _ t => (Resets pend ∧ Idle t.mem ∧ t.dev.iisr = 0) ∨
      (¬Resets pend ∧ t = s)) s := by
  refine (meets_ite _ _ _).mpr ⟨fun hc => ?_, fun hc => (meets_pure _).mpr (.inr ⟨hc, rfl⟩)⟩
  refine (meets_bind _ _).mpr (gives_reinit.imp ?_)
  rintro _ t ⟨hmem, hzero⟩
  rw [meets_bind, meets_get, hmem]
  refine (meets_ite _ _ _).mpr ⟨fun _ => ?_, fun hrx => ?_⟩
  · refine (meets_bind _ _).mpr ((gives_wakeup _).imp ?_)
    rintro _ u ⟨hidle, hdev⟩
    rw [meets_bind, meets_get, hidle.txMsg]
    exact (meets_pure _).mpr (.inl ⟨hc, hidle, hdev ▸ hzero⟩)
  · rw [meets_bind, meets_get, hmem]
    refine (meets_ite _ _ _).mpr ⟨fun _ => ?_, fun htx => (meets_pure _).mpr ?_⟩
    · refine (gives_wakeup _).imp ?_
      rintro _ u ⟨hidle, hdev⟩
      exact .inl ⟨hc, hidle, hdev ▸ hzero⟩
    · refine .inl ⟨hc, ?_, hzero⟩
      rcases h with hidle | ⟨i, m, hlive⟩
      · exact hmem ▸ hidle
      · have hsome : s.mem.txMsg = some i := hlive.txMsg
        exact absurd (by rw [hsome]; rfl) htx

theorem gives_readRx {j n : ℕ} {r : I2cMsg} (hp : s.mem.rxMsg = some j)
    (hm : s.mem.msgs[j]? = some r) (hpos : s.mem.rxPos = n) (hle : n ≤ r.len.toNat) :
    Gives xiicReadRx (fun _ t => t.dev = s.dev ∧
      t.mem = { s.mem with rxPos := n + readCount r n s.dev.rfo, bufs := t.mem.bufs }) s := by
  refine meets_dev_readRx (J := fun v k t => v = s.dev.rfo ∧ t.dev = s.dev ∧
    t.mem = { s.mem with rxPos := n + k, bufs := t.mem.bufs }) hp hm hpos hle ?_ ?_ ?_
  · rintro v e ⟨rfl, rfl⟩
    refine ⟨trivial, rfl, rfl, ?_⟩
    rw [Nat.cast_zero, add_zero, ← hpos]
    rfl
  · rintro v k t hk ⟨rfl, hdev, hmem⟩
    refine (meets_dev_storeRxByte (i := j) (by rw [hmem]; exact hp)).mpr ?_
    rintro byte _ rfl
    refine ⟨trivial, rfl, hdev, ?_⟩
    rw [hmem]
    simp only [Nat.cast_add, Nat.cast_one, add_assoc]
  · rintro v t ⟨rfl, hdev, hmem⟩
    have hj : t.mem.rxMsg = some j := by rw [hmem]; exact hp
    have hget : t.mem.msgs[j]? = some r := by rw [hmem]; exact hm
    refine (meets_bind _ _).mpr ((meets_dev_rxSpace hj hget).mpr ((meets_dev_setreg8 _ _).mpr ?_))
    rintro _ rfl
    exact ⟨trivial, hdev, hmem⟩

/-- The state behind the RX branch: the next message has been started, or the transmit side is
as it was. -/
def Received (x : Transfer) (restarts : Prop) (s u : Sys StatusRegs) : Prop :=
  (¬restarts ∧ u.dev = s.dev ∧ Cursor x u.mem ∧ u.mem.txMsg = s.mem.txMsg ∧
    u.mem.txPos = s.mem.txPos) ∨
  (restarts ∧ ∃ i s', s.mem.txMsg = some i ∧ s'.dev = s.dev ∧ s'.mem.txMsg = some (i + 1) ∧
    Restarted x (i + 1) s' u)

theorem gives_next (h : Live x s.mem i m) (hn : 1 < s.mem.nmsgs) : Gives (do
    nextMsg
    xiicStartXferUnlocked) (fun _ t => ∃ s', s'.dev = s.dev ∧ s'.mem.txMsg = some (i + 1) ∧
      Restarted x (i + 1) s' t) s := by
  obtain ⟨m', hnext⟩ := h.toAt.next hn
  rw [Gives, nextMsg, meets_bind, meets_onDev_modify]
  refine (gives_startXferUnlocked (s := s.withMem _) hnext).imp fun _ t ht => ⟨_, ?_, ?_, ht⟩
  · rfl
  · exact hnext.txMsg

/-- The end of an outstanding read: the next message is started if one remains. -/
theorem gives_rxEnd {t : Sys StatusRegs} (h : Live x t.mem i m) (hdev : t.dev = s.dev)
    (htx : t.mem.txMsg = s.mem.txMsg) (hpos : t.mem.txPos = s.mem.txPos) (isr clr : BitVec 32) :
    Gives (do
      modify fun d => { d with rxMsg := none }
      let d ← get
      if d.nmsgs > 1 then
        nextMsg
        xiicStartXferUnlocked
      return (clr ||| (isr &&& intrTxErrorMask), false)) (fun r u =>
        r = (clr ||| (isr &&& intrTxErrorMask), false) ∧ Received x (1 < t.mem.nmsgs) s u) t := by
  refine (meets_bind _ _).mpr ((meets_onDev_modify _).mpr ((meets_bind _ _).mpr (meets_get.mpr
    ((meets_ite _ _ _).mpr ⟨fun hn => ?_, fun hn => (meets_pure _).mpr ⟨rfl, .inl ?_⟩⟩))))
  · have hnext := gives_next (s := t.withMem { t.mem with rxMsg := none }) h.clearRx hn
    refine (meets_bind _ _).mpr (((meets_bind _ _).mp hnext).imp fun _ _ hu =>
      (meets_bind _ _).mpr (hu.imp fun _ v hv => (meets_pure _).mpr ⟨rfl, .inr ?_⟩))
    obtain ⟨s', hdev', htx', hstart⟩ := hv
    exact ⟨hn, i, s', htx.symm.trans h.txMsg, hdev'.trans hdev, htx', hstart⟩
  · exact ⟨hn, hdev, .inr ⟨i, m, h.clearRx⟩, htx, hpos⟩

theorem gives_processRx (h : Cursor x s.mem) (isr pend : BitVec 32) :
    Gives (processRx isr pend 0) (fun r u =>
      r.1 = (if pend &&& intrRxFullMask = 0 then 0 else intrRxFullMask) |||
        (if ReadEnds pend s.mem s.dev.rfo then isr &&& intrTxErrorMask else 0) ∧
      (r.2 = true ↔ pend &&& intrRxFullMask ≠ 0 ∧ s.mem.rxMsg = none) ∧
      Received x (ReadEnds pend s.mem s.dev.rfo ∧ 1 < s.mem.nmsgs) s u) s := by
  refine (meets_ite _ _ _).mpr ⟨fun hfull => (meets_pure _).mpr ?_, fun hfull => ?_⟩
  · have hno : ¬ReadEnds pend s.mem s.dev.rfo := fun hends => hends.1 hfull
    simp [hfull, hno, Received, h]
  refine (meets_bind _ _).mpr (meets_get.mpr ((meets_ite _ _ _).mpr ⟨fun hrx => ?_, fun hrx => ?_⟩))
  · have hnone : s.mem.rxMsg = none := by simpa using hrx
    have hno : ¬ReadEnds pend s.mem s.dev.rfo := by
      rintro ⟨-, r, hr, -⟩
      simp [hnone] at hr
    have hcore : Meets anyDevice free xiicClearRxFifo (fun _ t => t = s.core) s.core :=
      meets_clearRxFifo rfl
    refine (meets_bind _ _).mpr ((meets_with_core (gives_of_uses
      (uses_clearRxFifo trivial trivial)) hcore).imp ?_)
    rintro _ t ⟨hdev, hcore⟩
    have hmem : t.mem = s.mem := Config.mem_of_core hcore
    refine (meets_pure _).mpr ⟨?_, ⟨fun _ => ⟨hfull, hnone⟩, fun _ => rfl⟩, .inl ?_⟩
    · rw [if_neg hfull, if_neg hno]
      rfl
    · exact ⟨fun hc => hno hc.1, hdev, hmem ▸ h, by rw [hmem], by rw [hmem]⟩
  · obtain hidle | ⟨i, m, hlive⟩ := h
    · exact absurd (by rw [hidle.rxMsg]; rfl) hrx
    obtain ⟨j, hj⟩ := Option.ne_none_iff_exists'.mp (by simpa using hrx)
    obtain ⟨_, r, hr, _⟩ := hlive.rx j hj
    have hr' : s.mem.msgs[j]? = some r := hlive.msgs ▸ hr
    obtain ⟨n, hn⟩ := Int.eq_ofNat_of_zero_le (hlive.rxPos j r hj hr).1
    have hle := (hlive.rxPos j r hj hr).2
    have hends : ReadEnds pend s.mem s.dev.rfo ↔
        r.len.toNat - n ≤ (s.dev.rfo.toNat + 1) % 256 := by
      simp only [ReadEnds, hj, Option.bind_some, hr', Option.mem_def, Option.some.injEq,
        exists_eq_left', hn, ne_eq, hfull, not_false_iff, true_and]
      omega
    refine (meets_bind _ _).mpr ((gives_readRx hj hr' hn (by omega)).imp ?_)
    rintro _ t ⟨hdev, hmem⟩
    have hread : readCount r n s.dev.rfo = min (r.len.toNat - n) ((s.dev.rfo.toNat + 1) % 256) := rfl
    have hlive' : Live x t.mem i m := by
      rw [hmem]
      exact hlive.setRxPos hj hr (by omega) _
    have hj' : t.mem.rxMsg = some j := by rw [hmem]; exact hj
    have hpos : t.mem.rxPos = n + readCount r n s.dev.rfo := by rw [hmem]
    have hsome : s.mem.rxMsg ≠ none := by simp [hj]
    refine (meets_bind _ _).mpr ((meets_dev_rxSpace (s := t) hj' (hlive'.msgs ▸ hr)).mpr ?_)
    refine (meets_ite _ _ _).mpr ⟨fun hspace => (meets_pure _).mpr ?_, fun hspace => ?_⟩
    · have hno : ¬ReadEnds pend s.mem s.dev.rfo := by
        rw [hends]
        omega
      refine ⟨?_, by simp [hsome], .inl ⟨fun hc => hno hc.1, hdev, .inr ⟨i, m, hlive'⟩, ?_, ?_⟩⟩
      · rw [if_neg hfull, if_neg hno]
        rfl
      · exact hlive'.txMsg.trans hlive.txMsg.symm
      · rw [Config.noted_mem, hmem]
    have hyes : ReadEnds pend s.mem s.dev.rfo := by
      rw [hends]
      omega
    have hnmsgs : t.mem.nmsgs = s.mem.nmsgs := by rw [hmem]
    refine (gives_rxEnd (t := t.noted (.rxSpace r.len.toNat t.mem.rxPos)) hlive' hdev
      (hlive'.txMsg.trans hlive.txMsg.symm) (by rw [Config.noted_mem, hmem]) isr _).imp ?_
    rintro _ u ⟨rfl, hu⟩
    refine ⟨?_, by simp [hsome], ?_⟩
    · rw [if_neg hfull, if_pos hyes]
      rfl
    · rwa [and_iff_right hyes, ← hnmsgs]

theorem gives_processBnb (h : Cursor x s.mem) (out : Bool) (pend clr : BitVec 32) :
    Gives (processBnb out pend clr) (fun r t =>
      ((out = true ∨ pend &&& intrBnbMask = 0) ∧ r = (clr, out) ∧ t = s) ∨
      (¬(out = true ∨ pend &&& intrBnbMask = 0) ∧
        r = (clr ||| intrBnbMask, decide (s.mem.txMsg = none)) ∧ Idle t.mem ∧
        Clears 0 0 s.dev t.dev)) s := by
  refine (meets_ite _ _ _).mpr ⟨fun hc => (meets_pure _).mpr (.inl ⟨hc, rfl, rfl⟩), fun hc => ?_⟩
  refine (meets_bind _ _).mpr ((gives_irqDis _).imp ?_)
  rintro _ t ⟨hmem, hclears⟩
  rw [meets_bind, meets_get, hmem]
  obtain hidle | ⟨i, m, hlive⟩ := h
  · rw [hidle.txMsg]
    exact (meets_pure _).mpr (.inr ⟨hc, rfl, hmem ▸ hidle, hclears⟩)
  have hsome : decide (s.mem.txMsg = none) = false := by simp [hlive.txMsg]
  rw [hsome, hlive.txMsg]
  have hend : ∀ (space : ℕ) (u : Sys StatusRegs), u.dev = t.dev → Gives (do
      xiicWakeup (if space = 0 then .done else .error)
      return (clr ||| intrBnbMask, false)) (fun r u =>
        r = (clr ||| intrBnbMask, false) ∧ Idle u.mem ∧ Clears 0 0 s.dev u.dev) u := by
    intro space u hu
    refine (meets_bind _ _).mpr ((gives_wakeup _).imp ?_)
    rintro _ v ⟨hidle, hv⟩
    exact (meets_pure _).mpr ⟨rfl, hidle, hv.trans hu ▸ hclears⟩
  have hlive' : Live x t.mem i m := hmem ▸ hlive
  refine (meets_ite _ _ _).mpr ⟨fun hnone => absurd hnone (by simp), fun _ => ?_⟩
  refine Meets.imp (Q := fun r u => r = (clr ||| intrBnbMask, false) ∧ Idle u.mem ∧
    Clears 0 0 s.dev u.dev) ?_ fun r u hu => .inr ⟨hc, hu⟩
  refine (meets_ite _ _ _).mpr ⟨fun _ => ?_, fun _ => ?_⟩
  · refine (meets_bind _ _).mpr ((meets_dev_txSpace hlive'.txMsg hlive'.toAt.get).mpr ?_)
    exact hend _ _ rfl
  · exact (meets_bind _ _).mpr ((meets_pure _).mpr (hend _ _ rfl))

theorem gives_processTxDone (h : Live x s.mem i m) : Gives processTxDone (fun _ t =>
    ∃ k, Clears (if s.mem.txPos = m.len.toNat ∧ 2 ≤ txRoom (s.dev.tfo s.dev.reads) then
      startClears s.dev.tfo (x.msgs.drop (i + 1)) (s.dev.reads + 1) else 0) k s.dev t.dev) s := by
  refine (meets_bind _ _).mpr ((meets_dev_txSpace h.txMsg h.toAt.get).mpr ?_)
  rw [u32_sub (len_lt m) h.txPos]
  have hle := h.txPos
  refine (meets_ite _ _ _).mpr ⟨fun hspace => ?_, fun hspace => (meets_pure _).mpr ?_⟩
  · have hsent : s.mem.txPos = m.len.toNat := by omega
    simp only [hsent, true_and]
    refine (meets_bind _ _).mpr (meets_dev_txFifoSpace.mpr ?_)
    rintro _ _ ⟨rfl, rfl⟩
    have hread : Clears 0 1 s.dev { s.dev with reads := s.dev.reads + 1 } := .none rfl rfl rfl
    refine ⟨trivial, (meets_bind _ _).mpr (meets_get.mpr ((meets_ite _ _ _).mpr
      ⟨fun hroom => ?_, fun hroom => ?_⟩))⟩
    · have hpost : ∀ c : BitVec 32,
          (if 2 ≤ txRoom (s.dev.tfo s.dev.reads) then c else 0) = c := fun _ => if_pos hroom
      simp only [hpost]
      refine (meets_ite _ _ _).mpr ⟨fun hn => ?_, fun hn => ?_⟩
      · refine (gives_next (by exact h) hn).imp ?_
        rintro _ t ⟨s', hdev, -, k, -, -, -, hclears, -⟩
        rw [hdev] at hclears
        exact ⟨_, hclears.after hread⟩
      · have hlast : x.msgs.drop (i + 1) = [] := not_not.mp fun hne => hn (h.toAt.rest_ne_nil.mp hne)
        refine (gives_irqDis _).imp ?_
        rintro _ t ⟨-, hclears⟩
        rw [hlast]
        exact ⟨_, hclears.after hread⟩
    · have hpost : ∀ c : BitVec 32,
          (if 2 ≤ txRoom (s.dev.tfo s.dev.reads) then c else 0) = 0 := fun _ => if_neg hroom
      simp only [hpost]
      refine (meets_ite _ _ _).mpr ⟨fun _ => ?_, fun _ => (meets_pure _).mpr ⟨1, hread⟩⟩
      refine (gives_irqDis _).imp ?_
      rintro _ t ⟨-, hclears⟩
      exact ⟨_, hclears.after hread⟩
  · rw [if_neg fun hc => hspace (by omega)]
    exact ⟨0, .none rfl rfl rfl⟩

theorem gives_processTx (h : Cursor x s.mem) (out : Bool) (pend clr : BitVec 32) :
    Gives (processTx out pend clr) (fun clr' t =>
      ((out = true ∨ pend &&& (intrTxEmptyMask ||| intrTxHalfMask) = 0) ∧ clr' = clr ∧ t = s) ∨
      (¬(out = true ∨ pend &&& (intrTxEmptyMask ||| intrTxHalfMask) = 0) ∧
        clr' = clr ||| (pend &&& (intrTxEmptyMask ||| intrTxHalfMask)) ∧
        ∃ k, Clears (sentClears s.dev.tfo (queue s.mem) s.mem.txPos s.dev.reads) k
          s.dev t.dev)) s := by
  refine (meets_ite _ _ _).mpr ⟨fun hc => (meets_pure _).mpr (.inl ⟨hc, rfl, rfl⟩), fun hc => ?_⟩
  rw [meets_bind, meets_get]
  obtain hidle | ⟨i, m, hlive⟩ := h
  · have hqueue : queue s.mem = [] := by rw [queue, hidle.txMsg]
    rw [hidle.txMsg, hqueue]
    exact (meets_pure _).mpr (.inr ⟨hc, rfl, 0, .none rfl rfl rfl⟩)
  rw [hlive.txMsg]
  refine (meets_ite _ _ _).mpr ⟨fun hnone => absurd hnone (by simp), fun _ => ?_⟩
  refine (meets_bind _ _).mpr ((gives_fillTxFifo hlive.txMsg hlive.toAt.get hlive.txPos).imp ?_)
  rintro _ t ⟨hmem, hclears⟩
  have hle := hlive.txPos
  have hroom : s.mem.txPos + fillCount s.mem m (s.dev.tfo s.dev.reads) = m.len.toNat ↔
      m.len.toNat - s.mem.txPos ≤ u8 (txRoom (s.dev.tfo s.dev.reads)) := by
    simp only [fillCount, txRoom]
    omega
  have hlive' : Live x t.mem i m := by
    rw [hmem]
    refine hlive.setTxPos ?_
    simp only [fillCount]
    omega
  refine (meets_bind _ _).mpr ((gives_processTxDone hlive').imp ?_)
  rintro _ u ⟨k, hdone⟩
  refine (meets_pure _).mpr (.inr ⟨hc, rfl, 1 + k, ?_⟩)
  rw [queue_eq hlive, hlive.toAt.drop, sentClears]
  have hpos : t.mem.txPos = s.mem.txPos + fillCount s.mem m (s.dev.tfo s.dev.reads) := by rw [hmem]
  rw [hpos, hclears.tfo, hclears.reads] at hdone
  simp only [hroom] at hdone
  exact hdone.after hclears

end Branches

section Run

def pendingOn (s : Sys StatusRegs) : BitVec 32 := s.dev.iisr &&& s.dev.iier

/-- The interrupts that are serviced unless the device is reset: the pending ones with a branch
of their own, and a transmit error with the last bytes of a read. -/
def atStake (s : Sys StatusRegs) : BitVec 32 :=
  (pendingOn s &&& branchMask) |||
    if ReadEnds (pendingOn s) s.mem s.dev.rfo then s.dev.iisr &&& intrTxErrorMask else 0

/-- What the messages started behind a read that ends clear. -/
def readRestart (s : Sys StatusRegs) : BitVec 32 :=
  if ReadEnds (pendingOn s) s.mem s.dev.rfo then
    startClears s.dev.tfo (queue s.mem).tail s.dev.reads
  else 0

/-- What the messages started behind a write that ends clear. The TX branch is reached unless
the bus is free or there was nothing to receive; it finds the current message as it was, or
the next one behind a read that ends, if the FIFO had no room to begin it. -/
def writeRestart (s : Sys StatusRegs) : BitVec 32 :=
  if pendingOn s &&& intrBnbMask ≠ 0 ∨
      pendingOn s &&& (intrTxEmptyMask ||| intrTxHalfMask) = 0 ∨
      (pendingOn s &&& intrRxFullMask ≠ 0 ∧ s.mem.rxMsg = none) then 0
  else if ReadEnds (pendingOn s) s.mem s.dev.rfo ∧ 1 < s.mem.nmsgs then
    if txRoom (s.dev.tfo s.dev.reads) < 2 then
      sentClears s.dev.tfo (queue s.mem).tail 0 (s.dev.reads + 1)
    else 0
  else sentClears s.dev.tfo (queue s.mem) s.mem.txPos s.dev.reads

/-- No interrupt that the run services is cleared before its end: a run that resets the device
has nothing else to service, and the messages that a run starts clear nothing pending. -/
structure Undisturbed (s : Sys StatusRegs) : Prop where
  reset : Resets (pendingOn s) → pendingOn s &&& branchMask = 0
  restart : ¬Resets (pendingOn s) → atStake s &&& (readRestart s ||| writeRestart s) = 0

/-- Every interrupt of the word written last is clear, and none is set that was not before. -/
def Acknowledged (s t : Sys StatusRegs) : Prop :=
  t.dev.iisr &&& t.dev.written = 0 ∧ t.dev.iisr &&& ~~~s.dev.iisr = 0

/-- Flipping bits that were set acknowledges them unless one has been cleared before. -/
theorem acknowledged_iff {isr cleared clr : BitVec 32} (h : clr &&& ~~~isr = 0) :
    (((isr &&& ~~~cleared) ^^^ clr) &&& clr = 0 ∧
      ((isr &&& ~~~cleared) ^^^ clr) &&& ~~~isr = 0) ↔ clr &&& cleared = 0 := by
  have hset : ∀ k (hk : k < 32), clr[k] = true → isr[k] = true := by
    intro k hk hclr
    have hbit := congrArg (fun b : BitVec 32 => b[k]) h
    simpa [hclr] using hbit
  have hfirst : ((isr &&& ~~~cleared) ^^^ clr) &&& clr = clr &&& cleared := by
    ext k hk
    cases hclr : clr[k] with
    | false => simp [hclr]
    | true => simp [hclr, hset k hk hclr]
  have hsecond : ((isr &&& ~~~cleared) ^^^ clr) &&& ~~~isr = 0 := by
    ext k hk
    cases hisr : isr[k] with
    | true => simp [hisr]
    | false =>
      have hclr : clr[k] = false := by
        by_contra hclr
        simp [hset k hk (by simpa using hclr)] at hisr
      simp [hisr, hclr]
  rw [hfirst, hsecond]
  exact ⟨fun hc => hc.1, fun hc => ⟨hc, rfl⟩⟩

variable {x : Transfer} {s : Sys StatusRegs}

theorem and_single {a b : BitVec 32} (k : ℕ) (hb : b = BitVec.twoPow 32 k) :
    a &&& b = if a &&& b = 0 then 0 else b := by
  subst hb
  rw [BitVec.and_twoPow]
  cases a.getLsbD k with
  | false => simp
  | true => by_cases h : BitVec.twoPow 32 k = 0#32 <;> simp [h]

theorem masked_sub (isr mask : BitVec 32) : (isr &&& mask) &&& ~~~isr = 0 := by
  ext k hk
  cases hisr : isr[k] <;> simp [hisr]

/-- What is at stake, branch by branch. -/
theorem atStake_eq : atStake s =
    ((if pendingOn s &&& intrRxFullMask = 0 then 0 else intrRxFullMask) |||
      (if ReadEnds (pendingOn s) s.mem s.dev.rfo then s.dev.iisr &&& intrTxErrorMask else 0)) |||
    (pendingOn s &&& intrBnbMask) |||
    (pendingOn s &&& (intrTxEmptyMask ||| intrTxHalfMask)) := by
  rw [atStake, branchMask, BitVec.and_or_distrib_left, BitVec.and_or_distrib_left,
    ← and_single 3 (by decide)]
  ac_rfl

theorem atStake_sub : atStake s &&& ~~~s.dev.iisr = 0 := by
  rw [atStake, or_and_eq_zero]
  constructor
  · rw [pendingOn, BitVec.and_assoc s.dev.iisr]
    exact masked_sub _ _
  · split
    · exact masked_sub _ _
    · exact BitVec.zero_and

theorem readRestart_eq_zero (h : Cursor x s.mem)
    (hno : ¬(ReadEnds (pendingOn s) s.mem s.dev.rfo ∧ 1 < s.mem.nmsgs)) : readRestart s = 0 := by
  rw [readRestart]
  split
  · rename_i hends
    have htail : (queue s.mem).tail = [] := by
      obtain hidle | ⟨i, m, hlive⟩ := h
      · rw [queue, hidle.txMsg]
        rfl
      · rw [queue_eq hlive, hlive.toAt.drop, List.tail_cons]
        exact not_not.mp fun hne => hno ⟨hends, hlive.toAt.rest_ne_nil.mp hne⟩
    rw [htail]
    rfl
  · rfl

/-- The state before the final write, with the word that it will write. -/
def Before (s : Sys StatusRegs) (clr : BitVec 32) (t : Sys StatusRegs) : Prop :=
  ∃ cleared k, Clears cleared k s.dev t.dev ∧ clr &&& ~~~s.dev.iisr = 0 ∧
    (clr &&& cleared = 0 ↔ atStake s &&& (readRestart s ||| writeRestart s) = 0)

/-- Nothing in `c` that is at stake leaves the pending interrupts alone. -/
theorem spares_pending {b c : BitVec 32} (k : ℕ) (hb : b = BitVec.twoPow 32 k)
    (hbranch : branchMask &&& b = b) (hpend : pendingOn s &&& b ≠ 0)
    (hfree : atStake s &&& c = 0) : c &&& b = 0 := by
  have hset : pendingOn s &&& b = b := (and_single k hb).trans (if_neg hpend)
  calc c &&& b = c &&& (pendingOn s &&& (branchMask &&& b)) := by rw [hbranch, hset]
    _ = (pendingOn s &&& branchMask &&& c) &&& b := by ac_rfl
    _ = 0 := by rw [(or_and_eq_zero.mp hfree).1]; exact BitVec.zero_and

/-- A message that is begun clears RX_FULL or TX_EMPTY. -/
theorem beginClears_ne_zero (tfo : ℕ → BitVec 8) (m : I2cMsg) (rest : List I2cMsg) (n : ℕ) :
    beginClears tfo (m :: rest) n &&& (intrRxFullMask ||| intrTxEmptyMask) ≠ 0 := by
  rw [beginClears]
  split
  · decide
  · exact fun hzero => absurd (or_and_eq_zero.mp hzero).1 (by decide)

section Received

variable {u : Sys StatusRegs}

theorem Received.cursor (h : Received x (ReadEnds (pendingOn s) s.mem s.dev.rfo ∧ 1 < s.mem.nmsgs) s u) :
    Cursor x u.mem := by
  rcases h with ⟨-, -, hu, -⟩ | ⟨-, i, s', -, -, -, k, j, m', hlive, -⟩
  · exact hu
  · exact .inr ⟨j, m', hlive⟩

theorem queue_tail {i : ℕ} (h : Cursor x s.mem) (htx : s.mem.txMsg = some i) :
    (queue s.mem).tail = x.msgs.drop (i + 1) := by
  obtain hidle | ⟨j, m, hlive⟩ := h
  · simp [hidle.txMsg] at htx
  · obtain rfl : j = i := Option.some.inj (hlive.txMsg.symm.trans htx)
    rw [queue_eq hlive, hlive.toAt.drop, List.tail_cons]

theorem Received.clears (hs : Cursor x s.mem)
    (h : Received x (ReadEnds (pendingOn s) s.mem s.dev.rfo ∧ 1 < s.mem.nmsgs) s u) :
    ∃ k, Clears (readRestart s) k s.dev u.dev := by
  rcases h with ⟨hno, hdev, -⟩ | ⟨⟨hends, hn⟩, i, s', htx, hdev, -, k, j, m', -, hclears, -⟩
  · rw [readRestart_eq_zero hs hno, hdev]
    exact ⟨0, .none rfl rfl rfl⟩
  · rw [hdev] at hclears
    rw [readRestart, if_pos hends, queue_tail hs htx]
    exact ⟨k, hclears⟩

theorem queue_congr {d d' : XiicI2c} (h : Cursor x d) (h' : Cursor x d') (htx : d'.txMsg = d.txMsg) :
    queue d' = queue d := by
  rw [queue, queue, htx]
  obtain hidle | ⟨i, m, hlive⟩ := h
  · rw [hidle.txMsg]
  · obtain hidle' | ⟨i', m', hlive'⟩ := h'
    · exact absurd (hidle'.txMsg.symm.trans (htx.trans hlive.txMsg)) (by simp)
    · rw [hlive.msgs, hlive'.msgs]

/-- What the TX branch clears, unless the messages behind the read have hit what is at stake. -/
theorem Received.sent (hs : Cursor x s.mem)
    (h : Received x (ReadEnds (pendingOn s) s.mem s.dev.rfo ∧ 1 < s.mem.nmsgs) s u)
    (hbnb : pendingOn s &&& intrBnbMask = 0)
    (htx : pendingOn s &&& (intrTxEmptyMask ||| intrTxHalfMask) ≠ 0)
    (hrx : ¬(pendingOn s &&& intrRxFullMask ≠ 0 ∧ s.mem.rxMsg = none))
    (hfree : atStake s &&& readRestart s = 0) :
    sentClears u.dev.tfo (queue u.mem) u.mem.txPos u.dev.reads = writeRestart s := by
  have hreach : ¬(pendingOn s &&& intrBnbMask ≠ 0 ∨
      pendingOn s &&& (intrTxEmptyMask ||| intrTxHalfMask) = 0 ∨
      (pendingOn s &&& intrRxFullMask ≠ 0 ∧ s.mem.rxMsg = none)) := by
    rintro (h | h | h)
    · exact h hbnb
    · exact htx h
    · exact hrx h
  rw [writeRestart, if_neg hreach]
  have hu := h.cursor
  rcases h with ⟨hno, hdev, -, hmsg, hpos⟩ |
    ⟨⟨hends, hn⟩, i, s', hmsg, hdev, hmsg', k, j, m', hlive, hclears, hfull, hlast⟩
  · rw [if_neg hno, hdev, hpos, queue_congr hs hu hmsg]
  rw [hdev] at hclears hfull hlast
  rw [if_pos ⟨hends, hn⟩]
  by_cases hroom : txRoom (s.dev.tfo s.dev.reads) < 2
  · obtain ⟨rfl, hmem⟩ := hfull hroom
    have hnext : u.mem.txMsg = some (i + 1) := by rw [hmem]; exact hmsg'
    obtain rfl : j = i + 1 := Option.some.inj (hlive.txMsg.symm.trans hnext)
    have hpos : u.mem.txPos = 0 := by rw [hmem]
    rw [if_pos hroom, hclears.tfo, hclears.reads, queue_eq hlive, queue_tail hs hmsg, hpos]
  · -- a message has been begun, so TX_HALF is at stake, and the last message has been sent
    rw [if_neg hroom]
    have hbegun : readRestart s = startClears s.dev.tfo (x.msgs.drop (i + 1)) s.dev.reads := by
      rw [readRestart, if_pos hends, queue_tail hs hmsg]
    have hrxfull : readRestart s &&& intrRxFullMask = 0 :=
      spares_pending 3 (by decide) (by decide) hends.1 hfree
    have hhalf : readRestart s &&& intrTxHalfMask = 0 := by
      by_cases hempty : pendingOn s &&& intrTxEmptyMask = 0
      · refine spares_pending 7 (by decide) (by decide) (fun hzero => htx ?_) hfree
        exact and_or_eq_zero.mpr ⟨hempty, hzero⟩
      · have hspared := spares_pending 2 (by decide) (by decide) hempty hfree
        obtain ⟨m'', hrest⟩ : ∃ m'', x.msgs.drop (i + 1) = m'' :: x.msgs.drop (i + 1 + 1) := by
          obtain hidle | ⟨i', m₀, hlive₀⟩ := hs
          · exact absurd (hidle.txMsg.symm.trans hmsg) (by simp)
          · obtain rfl : i' = i := Option.some.inj (hlive₀.txMsg.symm.trans hmsg)
            obtain ⟨m'', hat⟩ := hlive₀.toAt.next hn
            exact ⟨m'', hat.drop⟩
        rw [hbegun, hrest, startClears, if_pos (by omega)] at hspared hrxfull
        exact absurd (and_or_eq_zero.mpr ⟨hrxfull, hspared⟩) (beginClears_ne_zero _ _ _ _)
    have hone : u.mem.nmsgs = 1 := by
      refine hlast ?_
      rw [← hbegun]
      exact and_or_eq_zero.mpr ⟨hrxfull, hhalf⟩
    have hnil : x.msgs.drop (j + 1) = [] :=
      not_not.mp fun hne => absurd (hlive.toAt.rest_ne_nil.mp hne) (by omega)
    rw [queue_eq hlive, hlive.toAt.drop, hnil, sentClears, startClears, ite_self]

end Received

theorem before_of_restarts {c : BitVec 32} {k : ℕ} {w : Sys StatusRegs}
    (hclears : Clears (readRestart s ||| c) k s.dev w.dev)
    (hc : atStake s &&& readRestart s = 0 → c = writeRestart s) : Before s (atStake s) w := by
  refine ⟨_, k, hclears, atStake_sub, fun hzero => ?_, fun hzero => ?_⟩
  · rwa [← hc (and_or_eq_zero.mp hzero).1]
  · rwa [hc (and_or_eq_zero.mp hzero).1]

theorem before_of_none {clr : BitVec 32} {k : ℕ} {w : Sys StatusRegs} (hread : readRestart s = 0)
    (hwrite : writeRestart s = 0) (hclears : Clears 0 k s.dev w.dev)
    (hclr : clr &&& ~~~s.dev.iisr = 0) : Before s clr w :=
  ⟨0, k, hclears, hclr, by simp [hread, hwrite]⟩

/-- The branches behind the error branch, from the state on entry. -/
theorem gives_branches (h : Cursor x s.mem) :
    Gives (processRx s.dev.iisr (pendingOn s) 0) (fun r u =>
      Gives (processBnb r.2 (pendingOn s) r.1) (fun r' v =>
        Gives (processTx r'.2 (pendingOn s) r'.1) (fun clr w => Before s clr w) v) u) s := by
  refine (gives_processRx h _ _).imp ?_
  rintro ⟨clr, out⟩ u ⟨hclr, hout, hreceived⟩
  simp only at hclr hout ⊢
  have hstake := atStake_eq (s := s)
  rw [← hclr] at hstake
  have hsub := atStake_sub (s := s)
  rw [hstake, or_and_eq_zero, or_and_eq_zero] at hsub
  obtain ⟨k, hread⟩ := hreceived.clears h
  refine (gives_processBnb hreceived.cursor out _ clr).imp ?_
  rintro ⟨clr₁, out₁⟩ v (⟨hskip, hr, rfl⟩ | ⟨hbusy, hr, hidle, hv⟩)
  · obtain ⟨rfl, rfl⟩ := Prod.mk.inj hr
    refine (gives_processTx hreceived.cursor out₁ _ clr₁).imp ?_
    rintro clr₂ w (⟨hskip', rfl, rfl⟩ | ⟨hgo, rfl, k', hsent⟩)
    · by_cases hout₁ : out₁ = true
      · -- an unexpected RX_FULL: nothing is started
        obtain ⟨hfull, hnone⟩ := hout.mp hout₁
        have hzero : readRestart s = 0 := by
          refine readRestart_eq_zero h fun hc => ?_
          obtain ⟨⟨-, r, hr, -⟩, -⟩ := hc
          simp [hnone] at hr
        exact before_of_none hzero (if_pos (.inr (.inr ⟨hfull, hnone⟩))) (hzero ▸ hread) hsub.1.1
      · have htx := hskip'.resolve_left hout₁
        have hall : atStake s = clr₂ := by
          rw [hstake, hskip.resolve_left hout₁, htx]
          simp
        rw [← hall]
        refine before_of_restarts (hread.trans (.none rfl rfl rfl : Clears 0 0 _ _)) fun _ => ?_
        exact (if_pos (.inr (.inl htx))).symm
    · obtain ⟨hout₁, htx⟩ := not_or.mp hgo
      have hbnb := hskip.resolve_left hout₁
      have hall : atStake s = clr₁ ||| (pendingOn s &&& (intrTxEmptyMask ||| intrTxHalfMask)) := by
        rw [hstake, hbnb]
        simp
      rw [← hall]
      refine before_of_restarts (hread.trans hsent) ?_
      exact hreceived.sent h hbnb htx fun hc => hout₁ (hout.mpr hc)
  · obtain ⟨rfl, rfl⟩ := Prod.mk.inj hr
    have hbnb : pendingOn s &&& intrBnbMask = intrBnbMask :=
      (and_single 4 (by decide)).trans (if_neg (not_or.mp hbusy).2)
    have hwrite : writeRestart s = 0 := if_pos (.inl (not_or.mp hbusy).2)
    rw [hbnb] at hstake hsub
    refine (gives_processTx (x := x) (.inl hidle) _ _ _).imp ?_
    have hnil : queue v.mem = [] := by rw [queue, hidle.txMsg]
    rintro clr₂ w (⟨hskip', rfl, rfl⟩ | ⟨hgo, rfl, k', hsent⟩)
    · by_cases hnone : u.mem.txMsg = none
      · have hzero : readRestart s = 0 := by
          refine readRestart_eq_zero h fun hc => ?_
          rcases hreceived with ⟨hno, -⟩ | ⟨-, i, s', -, -, -, k', j, m', hlive, -⟩
          · exact hno hc
          · exact absurd (hnone.symm.trans hlive.txMsg) (by simp)
        exact before_of_none hzero hwrite (hzero ▸ hread.trans hv) (or_and_eq_zero.mpr hsub.1)
      · have htx := hskip'.resolve_left (by simpa using hnone)
        have hall : atStake s = clr ||| intrBnbMask := by
          rw [hstake, htx]
          simp
        rw [← hall]
        exact before_of_restarts (hread.trans hv) fun _ => hwrite.symm
    · rw [hnil] at hsent
      rw [← hstake]
      exact before_of_restarts (hread.trans (hsent.after hv)) fun _ => hwrite.symm

/-- After the reset nothing is set, and only the pending interrupts with a branch are serviced. -/
theorem gives_branches_idle (x : Transfer) (h : Idle s.mem) (isr pend : BitVec 32) :
    Gives (processRx isr pend 0) (fun r u => Gives (processBnb r.2 pend r.1) (fun r' v =>
      Gives (processTx r'.2 pend r'.1) (fun clr w => (clr = 0 ↔ pend &&& branchMask = 0) ∧
        clr &&& ~~~pend = 0 ∧ ∃ k, Clears 0 k s.dev w.dev) v) u) s := by
  have hno : ¬ReadEnds pend s.mem s.dev.rfo := by
    rintro ⟨-, r, hr, -⟩
    simp [h.rxMsg] at hr
  have hsingle : ∀ {b : BitVec 32} (k : ℕ), b = BitVec.twoPow 32 k → pend &&& b ≠ 0 →
      b &&& ~~~pend = 0 := by
    intro b k hb hne
    rw [← (and_single k hb).trans (if_neg hne)]
    exact masked_sub _ _
  have hbranch : pend &&& branchMask = 0 ↔ (pend &&& intrRxFullMask = 0 ∧
      pend &&& intrBnbMask = 0) ∧ pend &&& (intrTxEmptyMask ||| intrTxHalfMask) = 0 := by
    rw [branchMask, and_or_eq_zero, and_or_eq_zero]
  rw [hbranch]
  refine (gives_processRx (x := x) (.inl h) isr pend).imp ?_
  rintro ⟨clr, out⟩ u ⟨hclr, hout, hreceived⟩
  simp only [h.rxMsg, and_true, if_neg hno] at hclr hout ⊢
  obtain ⟨-, hdev, hcursor, htx, -⟩ := hreceived.resolve_right fun hc => hno hc.1.1
  rw [h.txMsg] at htx
  have hidle : Idle u.mem := by
    obtain hidle | ⟨i, m, hlive⟩ := hcursor
    · exact hidle
    · exact absurd (htx.symm.trans hlive.txMsg) (by simp)
  rw [← hdev]
  refine (gives_processBnb hcursor out _ clr).imp ?_
  rintro ⟨clr₁, out₁⟩ v (⟨hskip, hr, rfl⟩ | ⟨hbusy, hr, hidle', hv⟩)
  · obtain ⟨rfl, rfl⟩ := Prod.mk.inj hr
    refine (gives_processTx hcursor out₁ _ clr₁).imp ?_
    rintro clr₂ w (⟨hskip', rfl, rfl⟩ | ⟨hgo, rfl, k, hsent⟩)
    · by_cases hfull : pend &&& intrRxFullMask = 0
      · have hout₁ : ¬out₁ = true := fun hc => hout.mp hc hfull
        have hnone : clr₂ = 0 := by rw [hclr, if_pos hfull]; rfl
        refine ⟨⟨fun _ => ⟨⟨hfull, hskip.resolve_left hout₁⟩, hskip'.resolve_left hout₁⟩,
          fun _ => hnone⟩, ?_, 0, .none rfl rfl rfl⟩
        rw [hnone]
        exact BitVec.zero_and
      · have hone : clr₂ = intrRxFullMask := by rw [hclr, if_neg hfull]; rfl
        rw [hone]
        refine ⟨⟨fun hzero => absurd hzero (by decide), fun hzero => absurd hzero.1.1 hfull⟩, ?_, 0,
          .none rfl rfl rfl⟩
        exact hsingle 3 (by decide) hfull
    · obtain ⟨hout₁, hset⟩ := not_or.mp hgo
      have hfull : pend &&& intrRxFullMask = 0 := by
        by_contra hfull
        exact hout₁ (hout.mpr hfull)
      have hqueue : queue v.mem = [] := by rw [queue, htx]
      rw [hqueue] at hsent
      rw [hclr, if_pos hfull]
      refine ⟨⟨fun hzero => ?_, fun hzero => absurd hzero.2 hset⟩, ?_, k, hsent⟩
      · exact absurd (by simpa using hzero) hset
      · simpa using masked_sub pend (intrTxEmptyMask ||| intrTxHalfMask)
  · obtain ⟨rfl, rfl⟩ := Prod.mk.inj hr
    have hfull : pend &&& intrRxFullMask = 0 := by
      by_contra hfull
      exact hbusy (.inl (hout.mpr hfull))
    have hset := (not_or.mp hbusy).2
    rw [hclr, if_pos hfull]
    refine (gives_processTx (x := x) (.inl hidle') _ _ _).imp ?_
    rintro clr₂ w (⟨-, rfl, rfl⟩ | ⟨hgo, -⟩)
    · refine ⟨⟨fun hzero => ?_, fun hzero => absurd hzero.1.2 hset⟩, ?_, 0, hv⟩
      · exact absurd (show 0 ||| 0 ||| intrBnbMask = 0 from hzero) (by decide)
      · simpa using hsingle 4 (by decide) hset
    · exact absurd (.inl (by simpa using htx)) hgo

theorem gives_process (h : Cursor x s.mem) :
    Gives xiicProcess (fun _ t => Acknowledged s t ↔ Undisturbed s) s := by
  rw [Gives, xiicProcess, meets_bind, meets_dev_getreg32]
  rintro _ _ ⟨rfl, rfl⟩
  rw [meets_bind, meets_dev_getreg32]
  refine ⟨trivial, ?_⟩
  rintro _ _ ⟨rfl, rfl⟩
  refine ⟨trivial, (meets_bind _ _).mpr ((meets_onDev_note _).mpr ?_)⟩
  have hlast : ∀ (clr : BitVec 32) (w : Sys StatusRegs), (∃ cleared,
      w.dev.iisr = s.dev.iisr &&& ~~~cleared ∧ clr &&& ~~~s.dev.iisr = 0 ∧
        (clr &&& cleared = 0 ↔ Undisturbed s)) →
      Gives (xiicSetreg32 .iisr clr) (fun _ t => Acknowledged s t ↔ Undisturbed s) w := by
    rintro clr w ⟨cleared, hiisr, hclr, hiff⟩
    refine (meets_dev_setreg32 _ _).mpr ?_
    rintro _ rfl
    refine ⟨trivial, Iff.trans ?_ ((acknowledged_iff hclr).trans hiff)⟩
    simp only [Acknowledged, Config.withDev_dev, hiisr]
  refine (meets_bind _ _).mpr ((gives_processError (s := s.noted _) (by exact h) _).imp ?_)
  rintro _ t (⟨hresets, hidle, hzero⟩ | ⟨hresets, rfl⟩)
  · refine (meets_bind _ _).mpr ((gives_branches_idle x hidle _ _).imp fun r u hu =>
      (meets_bind _ _).mpr (hu.imp fun r' v hv => (meets_bind _ _).mpr (hv.imp ?_)))
    rintro clr w ⟨hclr, hsub, k, hclears⟩
    replace hsub : clr &&& ~~~(s.dev.iisr &&& s.dev.iier) = 0 := hsub
    have hzero' : w.dev.iisr = 0 := by
      rw [hclears.iisr, hzero]
      exact BitVec.zero_and
    have hin : clr &&& s.dev.iisr = clr := by
      ext b hb
      have hbit : (clr &&& ~~~(s.dev.iisr &&& s.dev.iier))[b] = false := by
        rw [hsub]
        exact BitVec.getElem_zero hb
      cases hset : clr[b] with
      | false => simp [hset]
      | true =>
        simp only [BitVec.getElem_and, BitVec.getElem_not, hset, Bool.true_and,
          Bool.not_eq_false', Bool.and_eq_true] at hbit
        simp [hset, hbit.1]
    refine hlast clr w ⟨s.dev.iisr, by rw [hzero']; simp, ?_, ?_⟩
    · rw [← hin, BitVec.and_comm clr]
      exact masked_sub _ _
    · rw [hin, hclr]
      exact ⟨fun hfree => ⟨fun _ => hfree, fun hc => absurd hresets hc⟩, fun hund => hund.reset hresets⟩
  · refine (meets_bind _ _).mpr ((gives_branches (s := s.noted _) (by exact h)).imp fun r u hu =>
      (meets_bind _ _).mpr (hu.imp fun r' v hv => (meets_bind _ _).mpr (hv.imp ?_)))
    rintro clr w ⟨cleared, k, hclears, hclr, hiff⟩
    refine hlast clr w ⟨cleared, hclears.iisr, hclr, hiff.trans ?_⟩
    exact ⟨fun hfree => ⟨fun hc => absurd hc hresets, fun _ => hfree⟩, fun hund => hund.restart hresets⟩

/-- In a state of a transfer, a run acknowledges what it has serviced, and sets nothing, exactly
if what it starts on the way clears no interrupt that is pending. -/
theorem process_acknowledges_iff {x : Transfer} {s t : Sys StatusRegs} (h : Cursor x s.mem)
    (run : Exec (withMemory togglingStatus) xiicProcess s () t) :
    Acknowledged s t ↔ Undisturbed s :=
  (gives_process h).2 _ _ run

/-- The answers of the device, whose RX FIFO is empty when the status register is read. -/
def toggling (e : StatusRegs) (_ : Unit) : (p : Port) → Option (Port.Res p × StatusRegs)
  | .getreg32 .iisr => some (e.iisr, e)
  | .getreg32 .iier => some (e.iier, e)
  | .getreg8 .rfo => some (e.rfo, e)
  | .getreg8 .tfo => some (e.tfo e.reads, { e with reads := e.reads + 1 })
  | .setreg32 .iisr v => some ((), { e with iisr := e.iisr ^^^ v, written := v })
  | .setreg32 .iier v => some ((), { e with iier := v })
  | .setreg32 .resetr _ => some ((), { e with iisr := 0, iier := 0 })
  | p => some (drained p, e)

theorem toggling_refines : (ofAnswer toggling).Refines togglingStatus id := by
  rintro e p v e' ⟨_, h⟩
  cases p with
  | getreg8 reg =>
    cases reg with
    | rfo | tfo =>
      obtain ⟨rfl, rfl⟩ := Prod.mk.inj (Option.some.inj h)
      exact ⟨rfl, rfl⟩
    | _ =>
      obtain ⟨_, rfl⟩ := Prod.mk.inj (Option.some.inj h)
      rfl
  | getreg32 reg =>
    cases reg with
    | iisr | iier =>
      obtain ⟨rfl, rfl⟩ := Prod.mk.inj (Option.some.inj h)
      exact ⟨rfl, rfl⟩
    | _ =>
      obtain ⟨_, rfl⟩ := Prod.mk.inj (Option.some.inj h)
      rfl
  | setreg8 reg w =>
    obtain ⟨_, rfl⟩ := Prod.mk.inj (Option.some.inj h)
    rfl
  | setreg16 reg w =>
    obtain ⟨_, rfl⟩ := Prod.mk.inj (Option.some.inj h)
    rfl
  | setreg32 reg w =>
    cases reg with
    | _ =>
      obtain ⟨_, rfl⟩ := Prod.mk.inj (Option.some.inj h)
      rfl

def twoReads : Transfer where
  msgs := [⟨0x50, 1, 1⟩, ⟨0x51, 1, 1⟩]
  bufs := fun _ _ => 0
  pos := by decide
  lt := by decide

/-- The device with no interrupt set and nothing in its FIFOs. -/
def quietStatus : StatusRegs := ⟨0, 0, 0, 0, fun _ => 0, 0⟩

/-- The second read waits for its byte. -/
def atSecondRead : XiicI2c :=
  { assigned twoReads probed with
    txMsg := some 1, txPos := 1, nmsgs := 1, state := .start, rxMsg := some 1 }

theorem live_atSecondRead : Live twoReads atSecondRead 1 ⟨0x51, 1, 1⟩ := by
  refine ⟨⟨rfl, rfl, rfl, rfl, ?_⟩, by decide, ?_, rfl⟩
  · rintro j hj
    obtain rfl := Option.some.inj hj
    exact ⟨le_rfl, _, rfl, by decide⟩
  · intro j r _ _
    exact ⟨le_rfl, Int.natCast_nonneg _⟩

/-- The last byte of a transfer arrives, together with its negative acknowledge. -/
theorem process_acknowledges_lastByte : ∃ s t : Sys StatusRegs, s.mem = atSecondRead ∧
    Exec (withMemory togglingStatus) xiicProcess s () t ∧ Acknowledged s t := by
  have href := withMemory_refines (D := XiicI2c) (E := Event) toggling_refines
  have hdevice := onDevice_refines (D := XiicI2c) (E := Event) toggling fun _ _ => ()
  have hrun : (run (onDevice toggling fun _ _ => ()) 40 xiicProcess ⟨atSecondRead, [],
      { quietStatus with iisr := 0xA, iier := 0x1B }⟩).map (fun _ => ()) = some () := by
    decide +kernel
  obtain ⟨_, t, hexec, -⟩ := exec_of_run (fun _ : Sys StatusRegs => ()) hrun
  have hexec' := href.exec _ (hdevice.exec _ hexec)
  exact ⟨_, t, rfl, hexec', (process_acknowledges_iff (.inr ⟨1, _, live_atSecondRead⟩) hexec').mpr
    ⟨by decide, by decide⟩⟩

/-- The first of two reads ends: the second one clears RX_FULL, and the final write sets it
again, although no byte of the second read has arrived. -/
theorem restart_sets_rxFull : ∃ s t : Sys StatusRegs,
    Exec (withMemory togglingStatus) (startTransfer twoReads.msgs twoReads.bufs)
      ⟨probed, [], quietStatus⟩ () s ∧
    Exec (withMemory togglingStatus) xiicProcess
      (s.withDev { s.dev with iisr := intrRxFullMask }) () t ∧
    t.dev.iisr = intrRxFullMask ∧
    ¬Acknowledged (s.withDev { s.dev with iisr := intrRxFullMask }) t := by
  have href := withMemory_refines (D := XiicI2c) (E := Event) toggling_refines
  have hdevice := onDevice_refines (D := XiicI2c) (E := Event) toggling fun _ _ => ()
  have hrun : ((run (onDevice toggling fun _ _ => ()) 40
      (startTransfer twoReads.msgs twoReads.bufs) ⟨probed, [], quietStatus⟩).bind fun r =>
        (run (onDevice toggling fun _ _ => ()) 40 xiicProcess
          (r.2.withDev { r.2.dev with iisr := intrRxFullMask })).map
          (fun r => (r.2.dev.iisr, r.2.dev.written))) = some (intrRxFullMask, intrRxFullMask) := by
    decide +kernel
  obtain ⟨⟨_, s⟩, hstart, hprocess⟩ := Option.bind_eq_some_iff.mp hrun
  obtain ⟨_, s', hexec, rfl⟩ := exec_of_run id (congrArg (Option.map fun r => id r.2) hstart)
  obtain ⟨_, t, hexec', hend⟩ :=
    exec_of_run (fun t : Sys StatusRegs => (t.dev.iisr, t.dev.written)) hprocess
  obtain ⟨hiisr, hwritten⟩ := Prod.mk.inj hend
  refine ⟨_, t, href.exec _ (hdevice.exec _ hexec), href.exec _ (hdevice.exec _ hexec'), hiisr, ?_⟩
  rintro ⟨hclear, -⟩
  rw [hiisr, hwritten] at hclear
  exact absurd hclear (by decide)

end Run

end PynqPrio.Iic
