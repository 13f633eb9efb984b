import PynqPrio.IicReadBranches

/-!
# The order of the interrupts at the end of a read

A successful read ends with RX_FULL and TX_ERROR. A run of the interrupt thread takes
TX_ERROR for the end of the read only if it finds RX_FULL with it, and for a failure otherwise.
-/
namespace PynqPrio.Iic
open Programs Programs.Driver Programs.Prog

section Phases

/-- A transfer on its way: writes are being sent, the read has been asked for, all its bytes
are in the buffer, or it has ended well. -/
inductive Orderly (x : Transfer) (r : I2cMsg) (bytes : List (BitVec 8)) :
    XiicI2c → ReadEndRegs → Prop where
  | writing {d : XiicI2c} {e : ReadEndRegs} {i : ℕ} {m : I2cMsg} (live : Live x d i m)
      (write : ¬m.IsRead) (rx : d.rxMsg = none) (waits : e.Waits bytes) : Orderly x r bytes d e
  | reading {d : XiicI2c} {e : ReadEndRegs} {n : ℕ} (atEnd : AtEnd x r d)
      (rx : d.rxMsg = some (x.msgs.length - 1)) (pos : d.rxPos = n) (lt : n < r.len.toNat)
      (stored : Stored (x.msgs.length - 1) bytes n d.bufs) (receives : e.Receives bytes n)
      (filled : e.Filled) (heard : e.Heard) : Orderly x r bytes d e
  | complete {d : XiicI2c} {e : ReadEndRegs} (atEnd : AtEnd x r d) (rx : d.rxMsg = none)
      (stored : Stored (x.msgs.length - 1) bytes r.len.toNat d.bufs)
      (flows : e.Flows bytes r.len.toNat) (rxFull : e.rxFull = false) (heard : e.Heard) :
      Orderly x r bytes d e
  | ended {d : XiicI2c} {e : ReadEndRegs} (idle : Idle d) (state : d.state = .done)
      (stored : Stored (x.msgs.length - 1) bytes r.len.toNat d.bufs) (ceased : e.Over) :
      Orderly x r bytes d e

variable {x : Transfer} {r : I2cMsg} {bytes : List (BitVec 8)} {s t : Sys ReadEndRegs} {i n : ℕ}
  {m : I2cMsg} {e e' : ReadEndRegs} {clr clr' pend isr : BitVec 32} {d : XiicI2c}

/-- What the device does by itself leaves the transfer on its way. -/
theorem Orderly.works (hlen : bytes.length = r.len.toNat) (h : Orderly x r bytes d e)
    (hworks : e.Works e') : Orderly x r bytes d e' := by
  cases h with
  | writing live write rx waits =>
    exact .writing live write rx (ReadEndRegs.stable_waits.works waits hworks)
  | reading atEnd rx pos lt stored receives filled heard =>
    obtain ⟨receives', filled'⟩ := ReadEndRegs.stable_filled.works ⟨receives, filled⟩ hworks
    exact .reading atEnd rx pos lt stored receives' filled'
      (ReadEndRegs.stable_heard.works heard hworks)
  | complete atEnd rx stored flows rxFull heard =>
    obtain ⟨flows', rxFull'⟩ :=
      (ReadEndRegs.stable_complete hlen.le).works ⟨flows, rxFull⟩ hworks
    exact .complete atEnd rx stored flows' rxFull' (ReadEndRegs.stable_heard.works heard hworks)
  | ended idle state stored ceased =>
    exact .ended idle state stored (ReadEndRegs.stable_over.works ceased hworks)

/-- The device gets to the command of the read. -/
theorem Orderly.begin (h : Orderly x r bytes d e) (hrx : d.rxMsg ≠ none) :
    Orderly x r bytes d { e with reading := true } := by
  cases h with
  | writing live write rx waits => exact absurd rx hrx
  | reading atEnd rx pos lt stored receives filled heard =>
    refine .reading atEnd rx pos lt stored ⟨?_, receives.rfd, receives.txError⟩ filled heard
    exact ⟨receives.split, receives.depth, receives.nacked, receives.stopped, receives.bnb⟩
  | complete atEnd rx stored flows rxFull heard => exact absurd rx hrx
  | ended idle state stored ceased => exact absurd idle.rxMsg hrx

/-- A start of messages leaves a write, or the read with all its bytes to come. -/
theorem AtWrite.orderly (h : AtWrite x e t) (hw : e.Waits bytes) :
    Orderly x r bytes t.mem t.dev := by
  obtain ⟨i, m, hlive, hwrite, hrx, hwrote⟩ := h
  exact .writing hlive hwrite hrx (hwrote.waits hw)

theorem AtRead.orderly (hx : LastRead x r) (hlen : bytes.length = r.len.toNat)
    (h : AtRead x r e t) (hw : e.Waits bytes) : Orderly x r bytes t.mem t.dev := by
  obtain ⟨i, hlive, hrx, hpos, htx, l, ier, hasked⟩ := h
  obtain rfl := hx.eq_last hlive.toAt hx.read
  have hone := hx.len.1
  rw [hasked]
  refine .reading ⟨hlive, htx⟩ hrx hpos hone nofun ⟨⟨?_, ?_, ?_, ?_, ?_⟩, ?_, ?_⟩ ?_ ?_
  · rw [List.drop_zero, hw.fifo, hw.coming]
    rfl
  · rw [hw.fifo]
    exact Nat.zero_le _
  · exact fun hn => absurd (hw.nacked.symm.trans hn) nofun
  · exact fun hs => absurd (hw.stopped.symm.trans hs) nofun
  · exact hw.bnb.trans hw.stopped.symm
  · show min r.len.toNat 16 - 1 + 1 = min (bytes.length - 0) 16
    omega
  · exact hw.txError.trans hw.nacked.symm
  · exact fun hfull => absurd (hw.rxFull.symm.trans hfull) nofun
  · show (ier ||| recvMask) &&& recvMask = recvMask
    rw [BitVec.and_or_distrib_right, BitVec.and_self]
    ext k hk
    simp only [BitVec.getElem_or, BitVec.getElem_and]
    cases recvMask[k] <;> simp

section Rest

theorem Agrees.flip_eq (h : Agrees 0 clr) : e.flip clr = e := by
  have hzero : ∀ mask, (intrTxEmptyMask ||| intrTxHalfMask) &&& mask = 0 →
      (clr &&& mask != 0) = false := by
    intro mask hmask
    have hclr : clr &&& mask = 0 := (h mask hmask).trans BitVec.zero_and
    simpa using hclr
  simp only [ReadEndRegs.flip, hzero intrTxErrorMask (by decide), hzero intrRxFullMask (by decide),
    hzero intrBnbMask (by decide), Bool.false_xor]

variable {I J : ReadEndRegs → Prop} {Q : Unit → Sys ReadEndRegs → Prop}

/-- Without an error the RX branch comes first. -/
theorem yields_pending_rx (harb : pend &&& intrArbLostMask = 0)
    (herr : pend &&& intrTxErrorMask ≠ 0 → pend &&& intrRxFullMask ≠ 0)
    (h : Yields (do
      let (clr, out) ← processRx isr pend 0
      processSent out pend clr) Q s) : Yields (processPending isr pend) Q s := by
  refine (meets_bind _ _).mpr ((meets_ite _ _ _).mpr ⟨fun hc => ?_, fun _ => (meets_pure _).mpr h⟩)
  rcases hc with hc | ⟨hc, hzero⟩
  · exact absurd harb hc
  · exact absurd hzero (herr hc)

theorem yields_pending_sent (harb : pend &&& intrArbLostMask = 0)
    (herr : pend &&& intrTxErrorMask = 0) (hfull : pend &&& intrRxFullMask = 0)
    (h : Yields (processSent false pend 0) Q s) : Yields (processPending isr pend) Q s := by
  refine yields_pending_rx harb (fun hne => absurd herr hne) ((meets_bind _ _).mpr ?_)
  exact (meets_ite _ _ _).mpr ⟨fun _ => (meets_pure _).mpr h, fun hne => absurd hfull hne⟩

/-- The rest of a run that leaves the transfer on its way. -/
theorem yields_processSent (hI : ReadEndRegs.Stable I)
    (hdis : ∀ e, I e → I { e with iier := e.iier &&& ~~~intrTxHalfMask })
    (hJ : ReadEndRegs.Stable J) (hflip : ∀ e clr', I e → Agrees clr clr' → J (e.flip clr'))
    (h : AtEnd x r s.mem) (hdev : I s.dev) (hbnb : pend &&& intrBnbMask = 0) :
    Yields (processSent false pend clr) (fun _ t => t.mem = s.mem ∧ J t.dev) s := by
  refine (meets_bind _ _).mpr ((meets_ite _ _ _).mpr ⟨fun _ => (meets_pure _).mpr ?_,
    fun hc => absurd (.inr hbnb) hc⟩)
  refine (meets_bind _ _).mpr ((yields_processTx_end hI hdis h hdev _ _ _).imp ?_)
  rintro clr' t ⟨hmem, ht, hagrees⟩
  refine (yields_finish hJ (hflip _ _ ht hagrees)).imp ?_
  rintro _ u ⟨humem, hu⟩
  exact ⟨humem.trans hmem, hu⟩

/-- Nothing but the TX branch is left of a run that has found none of the three interrupts. -/
theorem yields_processSent_none (hI : ReadEndRegs.Stable I)
    (hdis : ∀ e, I e → I { e with iier := e.iier &&& ~~~intrTxHalfMask }) (h : AtEnd x r s.mem)
    (hdev : I s.dev) (hbnb : pend &&& intrBnbMask = 0) :
    Yields (processSent false pend 0) (fun _ t => t.mem = s.mem ∧ I t.dev) s := by
  refine yields_processSent hI hdis hI ?_ h hdev hbnb
  intro e clr' he hagrees
  rw [hagrees.flip_eq]
  exact he

/-- The rest of a run that finds the bus free behind the last byte. -/
theorem yields_processSent_done (hI : ReadEndRegs.Stable I)
    (hdis : ∀ e, I e → I { e with iier := e.iier &&& ~~~intrBnbMask })
    (hflip : ∀ e clr', I e → Agrees (clr ||| intrBnbMask) clr' → (e.flip clr').Over)
    (h : AtEnd x r s.mem) (hrx : s.mem.rxMsg = none) (hdev : I s.dev)
    (hbnb : pend &&& intrBnbMask ≠ 0) : Yields (processSent false pend clr) (fun _ t =>
      Idle t.mem ∧ t.mem.state = .done ∧ t.mem.bufs = s.mem.bufs ∧ t.dev.Over) s := by
  refine (meets_bind _ _).mpr ((yields_processBnb_done hI hdis h hrx hdev hbnb clr).imp ?_)
  rintro _ t ⟨rfl, hidle, hstate, hbufs, ht⟩
  refine (meets_bind _ _).mpr ((yields_processTx_idle hidle _ _ _).imp ?_)
  rintro clr' _ ⟨rfl, hagrees⟩
  refine (yields_finish ReadEndRegs.stable_over (hflip _ _ ht hagrees)).imp ?_
  rintro _ u ⟨humem, hu⟩
  exact ⟨humem ▸ hidle, humem ▸ hstate, humem ▸ hbufs, hu⟩

end Rest

/-- How a run leaves a transfer that was on its way: it takes TX_ERROR without RX_FULL for a
failure, and behind the end of the transfer on the bus it ends it. -/
structure Served (x : Transfer) (r : I2cMsg) (bytes : List (BitVec 8)) (e : ReadEndRegs)
    (t : Sys ReadEndRegs) : Prop where
  outcome : (¬(e.txError = true → e.rxFull = true) ∧ Idle t.mem ∧ t.mem.state = .error) ∨
    ((e.txError = true → e.rxFull = true) ∧ Orderly x r bytes t.mem t.dev)
  ends : e.stopped = true → t.mem.txMsg = none

/-- The error branch is taken for TX_ERROR without RX_FULL only. -/
theorem served_broken (h : Live x s.mem i m) (hfinds : Finds e isr pend) (herr : e.txError = true)
    (hfull : e.rxFull = false) : Yields (processPending isr pend) (fun _ t => Served x r bytes e t)
      s := by
  have hpend : pend &&& intrRxFullMask = 0 :=
    not_not.mp fun hne => absurd (hfull.symm.trans (hfinds.rxFull.mp hne)) nofun
  refine (yields_broken h (hfinds.txError.mpr herr) hpend).imp ?_
  rintro _ t ⟨hidle, hstate⟩
  refine ⟨.inl ⟨fun hboth => ?_, hidle, hstate⟩, fun _ => hidle.txMsg⟩
  exact absurd (hfull.symm.trans (hboth herr)) nofun

theorem Shows.eq_zero {v mask : BitVec 32} {raised : Bool} (h : Shows v mask raised)
    (hr : raised = false) : v &&& mask = 0 :=
  not_not.mp fun hne => absurd (hr.symm.trans (h.mp hne)) nofun

/-- All bytes are in the buffer: TX_ERROR is a failure now, and BNB ends the transfer. -/
theorem served_complete (hlen : bytes.length = r.len.toNat) (atEnd : AtEnd x r s.mem)
    (rx : s.mem.rxMsg = none) (stored : Stored (x.msgs.length - 1) bytes r.len.toNat s.mem.bufs)
    (flows : e.Flows bytes r.len.toNat) (rxFull : e.rxFull = false) (heard : e.Heard)
    (hworks : e.Works s.dev) (hfinds : Finds e isr pend) :
    Yields (processPending isr pend) (fun _ t => Served x r bytes e t) s := by
  cases herr : e.txError with
  | true => exact served_broken atEnd.live hfinds herr rxFull
  | false =>
    have hnot : e.txError = true → e.rxFull = true := fun h => absurd (herr.symm.trans h) nofun
    refine yields_pending_sent hfinds.arbLost (hfinds.txError.eq_zero herr)
      (hfinds.rxFull.eq_zero rxFull) ?_
    have hcomplete := (ReadEndRegs.stable_complete hlen.le).works ⟨flows, rxFull⟩ hworks
    cases hbnb : e.bnb with
    | true =>
      have hstopped : e.stopped = true := flows.bnb.symm.trans hbnb
      have hnacked := flows.stopped hstopped
      refine (yields_processSent_done (I := fun e' => (e'.Flows bytes r.len.toNat ∧
        e'.rxFull = false) ∧ e.Later e') ?_ ?_ ?_ atEnd rx
        ⟨hcomplete, (ReadEndRegs.stable_later e).works (.refl e) hworks⟩
        (hfinds.bnb.mpr hbnb)).imp ?_
      · exact fun e₁ e₂ h hstep => ⟨ReadEndRegs.stable_complete hlen.le _ _ h.1 hstep,
          ReadEndRegs.stable_later e _ _ h.2 hstep⟩
      · exact fun e' h => ⟨⟨h.1.1.withIier _, h.1.2⟩, h.2.withIier _⟩
      · rintro e' clr' ⟨⟨hflows, hfull⟩, hlater⟩ hagrees
        have herr' : e'.txError = false := by
          by_contra hne
          have htrue := hlater.once hnacked (by simpa using hne)
          exact absurd (herr.symm.trans htrue) nofun
        have hset : clr' &&& intrBnbMask ≠ 0 := by
          rw [hagrees _ (by decide)]
          decide
        obtain ⟨hfifo, hcoming⟩ := hflows.fifo_nil hlen.le
        refine ⟨?_, ?_, ?_, hlater.nacked hnacked, hlater.stopped hstopped, hfifo, hcoming⟩
        · exact (ReadEndRegs.xor_of_zero (hagrees _ (by decide)) _).trans herr'
        · exact (ReadEndRegs.xor_of_zero (hagrees _ (by decide)) _).trans hfull
        · exact ReadEndRegs.xor_of_ne hset (hlater.bnb hbnb)
      · rintro _ t ⟨hidle, hstate, hbufs, hover⟩
        exact ⟨.inr ⟨hnot, .ended hidle hstate (hbufs ▸ stored) hover⟩, fun _ => hidle.txMsg⟩
    | false =>
      refine (yields_processSent_none (I := fun e' => (e'.Flows bytes r.len.toNat ∧
        e'.rxFull = false) ∧ e'.Heard) ?_ ?_ atEnd
        ⟨hcomplete, ReadEndRegs.stable_heard.works heard hworks⟩
        (hfinds.bnb.eq_zero hbnb)).imp ?_
      · exact fun e₁ e₂ h hstep => ⟨ReadEndRegs.stable_complete hlen.le _ _ h.1 hstep,
          ReadEndRegs.stable_heard _ _ h.2 hstep⟩
      · exact fun e' h => ⟨⟨h.1.1.withIier _, h.1.2⟩, h.2.withoutHalf⟩
      · rintro _ t ⟨hmem, ⟨hflows, hfull⟩, hheard⟩
        refine ⟨.inr ⟨hnot, .complete (hmem ▸ atEnd) (hmem ▸ rx) (hmem ▸ stored) hflows hfull hheard⟩,
          fun hstopped => ?_⟩
        exact absurd (hbnb.symm.trans (flows.bnb.trans hstopped)) nofun

/-- Without RX_FULL and TX_ERROR the read goes on as it was. -/
theorem served_pausing (atEnd : AtEnd x r s.mem) (rx : s.mem.rxMsg = some (x.msgs.length - 1))
    (pos : s.mem.rxPos = n) (lt : n < r.len.toNat)
    (stored : Stored (x.msgs.length - 1) bytes n s.mem.bufs) (receives : e.Receives bytes n)
    (filled : e.Filled) (heard : e.Heard) (hworks : e.Works s.dev) (hfinds : Finds e isr pend)
    (hfull : e.rxFull = false) (herr : e.txError = false) :
    Yields (processPending isr pend) (fun _ t => Served x r bytes e t) s := by
  have hstopped : e.stopped = false := by
    by_contra hne
    have hnacked := receives.stopped (by simpa using hne)
    exact absurd (herr.symm.trans (receives.txError.trans hnacked)) nofun
  refine yields_pending_sent hfinds.arbLost (hfinds.txError.eq_zero herr)
    (hfinds.rxFull.eq_zero hfull) ?_
  refine (yields_processSent_none (I := fun e' => (e'.Receives bytes n ∧ e'.Filled) ∧ e'.Heard)
    ?_ ?_ atEnd ⟨ReadEndRegs.stable_filled.works ⟨receives, filled⟩ hworks,
      ReadEndRegs.stable_heard.works heard hworks⟩
    (hfinds.bnb.eq_zero (receives.bnb.trans hstopped))).imp ?_
  · exact fun e₁ e₂ h hstep => ⟨ReadEndRegs.stable_filled _ _ h.1 hstep,
      ReadEndRegs.stable_heard _ _ h.2 hstep⟩
  · exact fun e' h => ⟨⟨⟨h.1.1.withIier _, h.1.1.rfd, h.1.1.txError⟩, h.1.2⟩, h.2.withoutHalf⟩
  · rintro _ t ⟨hmem, ⟨hreceives, hfilled⟩, hheard⟩
    refine ⟨.inr ⟨fun h => absurd (herr.symm.trans h) nofun, .reading (hmem ▸ atEnd) (hmem ▸ rx)
      (hmem ▸ pos) lt (hmem ▸ stored) hreceives hfilled hheard⟩, fun h => ?_⟩
    exact absurd (hstopped.symm.trans h) nofun

theorem ReadEndRegs.Flows.flip (h : e.Flows bytes n) (hbnb : clr &&& intrBnbMask = 0) :
    (e.flip clr).Flows bytes n :=
  ⟨h.split, h.depth, h.nacked, h.stopped, (ReadEndRegs.xor_of_zero hbnb _).trans h.bnb⟩

theorem ReadEndRegs.Popped.withoutHalf (h : e.Popped bytes n e') :
    e.Popped bytes n { e' with iier := e'.iier &&& ~~~intrTxHalfMask } :=
  ⟨h.toFlows.withIier _, fun hn => ⟨h.toFlows.withIier _, (h.receives hn).rfd, (h.receives hn).txError⟩,
    h.heard.withoutHalf, h.later.withIier _⟩

/-- The receive position moves inside the last message. -/
theorem AtEnd.received {d' : XiicI2c} (h : AtEnd x r d) (hrx : d.rxMsg = some (x.msgs.length - 1))
    (hn : n ≤ r.len.toNat) (hd' : d' = { d with rxPos := n, rxMsg := d'.rxMsg, bufs := d'.bufs })
    (hrx' : ∀ j, d'.rxMsg = some j → j = x.msgs.length - 1) : AtEnd x r d' := by
  generalize d'.rxMsg = rx at hd' hrx'
  generalize d'.bufs = bufs at hd'
  subst hd'
  refine ⟨⟨⟨h.live.msgs, h.live.txMsg, h.live.msg, h.live.nmsgs, fun j hj => ?_⟩, h.txPos.le,
    fun j q hj hq => ?_, h.live.state⟩, h.txPos⟩
  · obtain rfl := hrx' j hj
    exact h.live.rx _ hrx
  · obtain rfl := hrx' j hj
    obtain rfl := Option.some.inj (h.live.msg.symm.trans hq)
    exact ⟨Int.natCast_nonneg n, Int.ofNat_le.mpr hn⟩

/-- The word of a run that ends the read. -/
theorem or_txError (isr : BitVec 32) :
    (intrRxFullMask ||| (isr &&& intrTxErrorMask)) &&& intrRxFullMask ≠ 0 ∧
    (intrRxFullMask ||| (isr &&& intrTxErrorMask)) &&& intrBnbMask = 0 ∧
    (intrRxFullMask ||| (isr &&& intrTxErrorMask)) &&& intrTxErrorMask = isr &&& intrTxErrorMask := by
  refine ⟨fun hzero => absurd (or_and_eq_zero.mp hzero).1 (by decide), ?_, ?_⟩
  · refine or_and_eq_zero.mpr ⟨by decide, ?_⟩
    rw [BitVec.and_assoc, show intrTxErrorMask &&& intrBnbMask = 0 by decide]
    exact BitVec.and_zero
  · rw [BitVec.and_or_distrib_right, BitVec.and_assoc, BitVec.and_self]
    exact BitVec.zero_or

/-- The bytes of the FIFO are in the buffer, and others are still to come. -/
theorem served_more (hlen : bytes.length = r.len.toNat) (atEnd : AtEnd x r s.mem)
    (rx : s.mem.rxMsg = some (x.msgs.length - 1)) (pos : s.mem.rxPos = n) (lt : n < r.len.toNat)
    (stored : Stored (x.msgs.length - 1) bytes n s.mem.bufs) (popped : e'.Popped bytes n s.dev)
    (later : e.Later e') (hfull : e.rxFull = true) (stopped : e.stopped = false)
    (hbnb : pend &&& intrBnbMask = 0) :
    Yields (processSent false pend intrRxFullMask) (fun _ t => Served x r bytes e t) s := by
  refine (yields_processSent (I := e'.Popped bytes n)
    (J := fun e₁ => (e₁.Receives bytes n ∧ e₁.Filled) ∧ e₁.Heard) ReadEndRegs.stable_popped
    (fun _ h => h.withoutHalf) ?_ ?_ atEnd popped hbnb).imp ?_
  · exact fun e₁ e₂ h hstep => ⟨ReadEndRegs.stable_filled _ _ h.1 hstep,
      ReadEndRegs.stable_heard _ _ h.2 hstep⟩
  · intro e₁ clr' h hagrees
    have hset : clr' &&& intrRxFullMask ≠ 0 := by
      rw [hagrees _ (by decide)]
      decide
    have hreceives := h.receives (hlen ▸ lt)
    have hclear : (e₁.flip clr').rxFull = false :=
      ReadEndRegs.xor_of_ne hset (h.later.rxFull (later.rxFull hfull))
    refine ⟨⟨⟨h.toFlows.flip (hagrees _ (by decide)), hreceives.rfd, ?_⟩, fun hset' => ?_⟩, h.heard⟩
    · exact (ReadEndRegs.xor_of_zero (hagrees _ (by decide)) _).trans hreceives.txError
    · exact absurd (hclear.symm.trans hset') nofun
  · rintro _ t ⟨hmem, ⟨receives, filled⟩, heard⟩
    refine ⟨.inr ⟨fun _ => hfull, ?_⟩, fun h => absurd (stopped.symm.trans h) nofun⟩
    exact .reading (hmem ▸ atEnd) (hmem ▸ rx) (hmem ▸ pos) lt (hmem ▸ stored) receives filled heard

/-- All bytes are in the buffer, and the transfer goes on on the bus. -/
theorem served_last (hlen : bytes.length = r.len.toNat) (atEnd : AtEnd x r s.mem)
    (rx : s.mem.rxMsg = none) (stored : Stored (x.msgs.length - 1) bytes r.len.toNat s.mem.bufs)
    (popped : e'.Popped bytes r.len.toNat s.dev) (later : e.Later e') (hfull : e.rxFull = true)
    (stopped : e.stopped = false) (hbnb : pend &&& intrBnbMask = 0) :
    Yields (processSent false pend (intrRxFullMask ||| (isr &&& intrTxErrorMask)))
      (fun _ t => Served x r bytes e t) s := by
  obtain ⟨hword, hnobnb, -⟩ := or_txError isr
  refine (yields_processSent (I := e'.Popped bytes r.len.toNat) (J := fun e₁ =>
    (e₁.Flows bytes r.len.toNat ∧ e₁.rxFull = false) ∧ e₁.Heard) ReadEndRegs.stable_popped
    (fun _ h => h.withoutHalf) ?_ ?_ atEnd popped hbnb).imp ?_
  · exact fun e₁ e₂ h hstep => ⟨ReadEndRegs.stable_complete hlen.le _ _ h.1 hstep,
      ReadEndRegs.stable_heard _ _ h.2 hstep⟩
  · intro e₁ clr' h hagrees
    have hset : clr' &&& intrRxFullMask ≠ 0 := by
      rw [hagrees _ (by decide)]
      exact hword
    refine ⟨⟨h.toFlows.flip ((hagrees _ (by decide)).trans hnobnb), ?_⟩, h.heard⟩
    exact ReadEndRegs.xor_of_ne hset (h.later.rxFull (later.rxFull hfull))
  · rintro _ t ⟨hmem, ⟨flows, rxFull⟩, heard⟩
    refine ⟨.inr ⟨fun _ => hfull, ?_⟩, fun h => absurd (stopped.symm.trans h) nofun⟩
    exact .complete (hmem ▸ atEnd) (hmem ▸ rx) (hmem ▸ stored) flows rxFull heard

/-- All bytes are in the buffer, and the run has found TX_ERROR and BNB with them. -/
theorem served_last_bnb (hlen : bytes.length = r.len.toNat) (atEnd : AtEnd x r s.mem)
    (rx : s.mem.rxMsg = none) (stored : Stored (x.msgs.length - 1) bytes r.len.toNat s.mem.bufs)
    (popped : e'.Popped bytes r.len.toNat s.dev) (later : e.Later e') (hfull : e.rxFull = true)
    (stopped : e.stopped = true) (nacked : e.nacked = true) (herr : e.txError = true)
    (hbnb : e.bnb = true) (hfinds : Finds e isr pend) :
    Yields (processSent false pend (intrRxFullMask ||| (isr &&& intrTxErrorMask)))
      (fun _ t => Served x r bytes e t) s := by
  obtain ⟨hword, -, hword'⟩ := or_txError isr
  refine (yields_processSent_done (I := fun e₁ => e₁.Flows bytes r.len.toNat ∧ e.Later e₁)
    ?_ ?_ ?_ atEnd rx ⟨popped.toFlows, later.trans popped.later⟩ (hfinds.bnb.mpr hbnb)).imp ?_
  · exact fun e₁ e₂ h hstep => ⟨ReadEndRegs.stable_flows _ _ h.1 hstep,
      ReadEndRegs.stable_later e _ _ h.2 hstep⟩
  · exact fun e₁ h => ⟨h.1.withIier _, h.2.withIier _⟩
  · rintro e₁ clr' ⟨hflows, hsince⟩ hagrees
    obtain ⟨hfifo, hcoming⟩ := hflows.fifo_nil hlen.le
    refine ⟨ReadEndRegs.xor_of_ne ?_ (hsince.txError herr),
      ReadEndRegs.xor_of_ne ?_ (hsince.rxFull hfull), ReadEndRegs.xor_of_ne ?_ (hsince.bnb hbnb),
      hsince.nacked nacked, hsince.stopped stopped, hfifo, hcoming⟩
    · rw [hagrees _ (by decide)]
      exact fun hzero => hfinds.isrTxError.mpr herr (hword'.symm.trans (or_and_eq_zero.mp hzero).1)
    · rw [hagrees _ (by decide)]
      exact fun hzero => hword (or_and_eq_zero.mp hzero).1
    · rw [hagrees _ (by decide)]
      exact fun hzero => absurd (or_and_eq_zero.mp hzero).2 (by decide)
  · rintro _ t ⟨hidle, hstate, hbufs, hover⟩
    exact ⟨.inr ⟨fun _ => hfull, .ended hidle hstate (hbufs ▸ stored) hover⟩, fun _ => hidle.txMsg⟩

/-- The last byte has not been acknowledged while more are to come than the FIFO holds. -/
theorem ReadEndRegs.Receives.not_nacked (h : e.Receives bytes n) (hlen : n + 16 < bytes.length) :
    e.nacked = false := by
  by_contra hne
  have hcoming := h.nacked (by simpa using hne)
  have hlength := congrArg List.length h.split
  have hdepth := h.depth
  rw [hcoming, List.append_nil, List.length_drop] at hlength
  omega

/-- RX_FULL: the bytes of the FIFO go into the buffer. With the last one of them, TX_ERROR is
serviced if it has been found too, and so is BNB. -/
theorem served_filled (hlen : bytes.length = r.len.toNat) (atEnd : AtEnd x r s.mem)
    (rx : s.mem.rxMsg = some (x.msgs.length - 1)) (pos : s.mem.rxPos = n) (lt : n < r.len.toNat)
    (stored : Stored (x.msgs.length - 1) bytes n s.mem.bufs) (receives : e.Receives bytes n)
    (filled : e.Filled) (heard : e.Heard) (hworks : e.Works s.dev) (hfinds : Finds e isr pend)
    (hfull : e.rxFull = true) :
    Yields (processPending isr pend) (fun _ t => Served x r bytes e t) s := by
  have hpend : pend &&& intrRxFullMask ≠ 0 := hfinds.rxFull.mpr hfull
  obtain ⟨hreceives, hfilled⟩ := ReadEndRegs.stable_filled.works ⟨receives, filled⟩ hworks
  have hlater := (ReadEndRegs.stable_later e).works (.refl e) hworks
  refine yields_pending_rx hfinds.arbLost (fun _ => hpend) ((meets_bind _ _).mpr
    ((yields_processRx_read atEnd rx pos hlen lt stored hreceives
      (ReadEndRegs.stable_heard.works heard hworks) (hfilled (hlater.rxFull hfull)) hpend).imp ?_))
  rintro ⟨clr, out⟩ t ⟨n', hst, hpopped, hmem, hn', hcase⟩
  have hend : AtEnd x r t.mem := by
    refine atEnd.received rx (by omega) hmem fun j hj => ?_
    rcases hcase with ⟨-, hrx, -⟩ | ⟨-, hrx, -⟩
    · exact Option.some.inj (hj.symm.trans hrx)
    · exact absurd (hrx.symm.trans hj) nofun
  obtain ⟨hlt, hrx, hq⟩ | ⟨hall, hrx, hq⟩ := hcase
  · obtain ⟨rfl, rfl⟩ := Prod.mk.inj hq
    have hnacked : e.nacked = false := by
      by_contra hne
      have hnot := hreceives.not_nacked (by omega)
      exact absurd (hnot.symm.trans (hlater.nacked (by simpa using hne))) nofun
    have hstopped : e.stopped = false := by
      by_contra hne
      exact absurd (hnacked.symm.trans (receives.stopped (by simpa using hne))) nofun
    exact served_more hlen hend hrx (by rw [hmem]) hlt hst hpopped hlater hfull hstopped
      (hfinds.bnb.eq_zero (receives.bnb.trans hstopped))
  · obtain ⟨rfl, rfl⟩ := Prod.mk.inj hq
    subst hall
    cases hbnb : e.bnb with
    | true =>
      have hstopped : e.stopped = true := receives.bnb.symm.trans hbnb
      have hnacked := receives.stopped hstopped
      exact served_last_bnb hlen hend hrx hst hpopped hlater hfull hstopped hnacked
        (receives.txError.trans hnacked) hbnb hfinds
    | false =>
      exact served_last hlen hend hrx hst hpopped hlater hfull (receives.bnb.symm.trans hbnb)
        (hfinds.bnb.eq_zero hbnb)

/-- The TX branch sends on, or goes on to the next message and the read at last. -/
theorem yields_processTx_write (hx : LastRead x r) (hlen : bytes.length = r.len.toNat)
    (live : Live x s.mem i m) (write : ¬m.IsRead) (rx : s.mem.rxMsg = none)
    (waits : s.dev.Waits bytes) (pend clr : BitVec 32) : Yields (processTx false pend clr)
      (fun clr' t => Orderly x r bytes t.mem t.dev ∧ Agrees clr clr') s := by
  refine (meets_ite _ _ _).mpr ⟨fun _ => (meets_pure _).mpr ⟨.writing live write rx waits,
    fun _ _ => rfl⟩, fun _ => ?_⟩
  rw [meets_bind, meets_get, live.txMsg]
  refine (meets_ite _ _ _).mpr ⟨fun hnone => absurd hnone (by simp), fun _ => ?_⟩
  refine (meets_bind _ _).mpr ((yields_fillTxFifo (i := i) (m := m) waits.reading live.txMsg
    live.toAt.get live.txPos).imp ?_)
  rintro _ t ⟨⟨p, -, hp, hmem⟩, l, hdev⟩
  have hlive : Live x t.mem i m := hmem ▸ live.setTxPos hp
  have hrx : t.mem.rxMsg = none := by rw [hmem]; exact rx
  have hwrote : Wrote s.dev t.dev := ⟨l, s.dev.iier, hdev⟩
  have hwaits := hwrote.waits waits
  refine (meets_bind _ _).mpr (Meets.imp (Q := fun _ u => Orderly x r bytes u.mem u.dev) ?_
    fun _ u hu => (meets_pure _).mpr ⟨hu, agrees_tx clr pend⟩)
  refine (meets_bind _ _).mpr ((meets_dev_txSpace hlive.txMsg hlive.toAt.get).mpr ?_)
  refine (meets_ite _ _ _).mpr ⟨fun _ => ?_, fun _ => (meets_pure _).mpr
    (.writing hlive write hrx hwaits)⟩
  refine (meets_bind _ _).mpr (meets_dev_txFifoSpace.mpr ?_)
  rintro v _ ⟨_, ⟨hv, rfl⟩, hworks⟩
  obtain ⟨l', hl', rfl⟩ := hworks.drained hwaits.reading
  have hwrote' : Wrote t.dev { t.dev with level := l' } := ⟨l', t.dev.iier, rfl⟩
  have hwaits' := hwrote'.waits hwaits
  have hhalf : ∀ u : Sys ReadEndRegs, u.mem = t.mem → u.dev.Waits bytes →
      Yields (xiicIrqDis intrTxHalfMask) (fun _ u => Orderly x r bytes u.mem u.dev) u := by
    intro u humem hu
    refine (yields_irqDis ReadEndRegs.stable_waits
      (fun e he => Wrote.waits ⟨e.level, _, rfl⟩ he) hu).imp ?_
    rintro _ w ⟨hwmem, hw⟩
    have hmem' : w.mem = t.mem := hwmem.trans humem
    exact .writing (hmem' ▸ hlive) write (hmem' ▸ hrx) hw
  refine ⟨trivial, (meets_bind _ _).mpr (meets_get.mpr ((meets_ite _ _ _).mpr ⟨fun hroom => ?_,
    fun _ => (meets_ite _ _ _).mpr ⟨fun _ => hhalf _ rfl hwaits', fun _ => (meets_pure _).mpr ?_⟩⟩))⟩
  · refine (meets_ite _ _ _).mpr ⟨fun hn => ?_, fun _ => hhalf _ rfl hwaits'⟩
    obtain ⟨m', hnext⟩ := hlive.toAt.next hn
    have hlevel : l' ≤ 14 := by
      replace hv : v.toNat = t.dev.level - 1 := hv
      replace hl' : l' ≤ t.dev.level := hl'
      omega
    have hstart : ∀ u : Sys ReadEndRegs, At x u.mem (i + 1) m' → u.mem.rxMsg = none →
        u.dev = { t.dev with level := l' } →
        Yields xiicStartXferUnlocked (fun _ w => Orderly x r bytes w.mem w.dev) u := by
      intro u hat hurx hudev
      rw [← hudev] at hwaits'
      refine (yields_startXferUnlocked hx hat hurx hwaits'.toQuiet (by rw [hudev]; exact hlevel)).imp ?_
      rintro _ w (hread | hwrite)
      · exact hread.orderly hx hlen hwaits'
      · exact hwrite.orderly hwaits'
    rw [nextMsg, meets_bind, meets_onDev_modify]
    exact hstart _ hnext hrx rfl
  · exact .writing hlive write hrx hwaits'

/-- While writes are sent nothing of the read is found. -/
theorem served_writing (hx : LastRead x r) (hlen : bytes.length = r.len.toNat)
    (live : Live x s.mem i m) (write : ¬m.IsRead) (rx : s.mem.rxMsg = none)
    (waits : e.Waits bytes) (hworks : e.Works s.dev) (hfinds : Finds e isr pend) :
    Yields (processPending isr pend) (fun _ t => Served x r bytes e t) s := by
  refine yields_pending_sent hfinds.arbLost (hfinds.txError.eq_zero waits.txError)
    (hfinds.rxFull.eq_zero waits.rxFull) ?_
  refine (meets_bind _ _).mpr ((meets_ite _ _ _).mpr ⟨fun _ => (meets_pure _).mpr ?_,
    fun hc => absurd (.inr (hfinds.bnb.eq_zero waits.bnb)) hc⟩)
  refine (meets_bind _ _).mpr ((yields_processTx_write hx hlen live write rx
    (ReadEndRegs.stable_waits.works waits hworks) _ _).imp ?_)
  rintro clr t ⟨horderly, hagrees⟩
  refine (meets_dev_setreg32 _ _).mpr ?_
  rintro e' ⟨_, rfl, hworks'⟩
  rw [hagrees.flip_eq] at hworks'
  refine ⟨trivial, .inr ⟨fun herr => ?_, horderly.works hlen hworks'⟩, fun hstopped => ?_⟩
  · exact absurd (waits.txError.symm.trans herr) nofun
  · exact absurd (waits.stopped.symm.trans hstopped) nofun

/-- Behind a transfer that has ended well nothing is found. -/
theorem served_ended (idle : Idle s.mem) (state : s.mem.state = .done)
    (stored : Stored (x.msgs.length - 1) bytes r.len.toNat s.mem.bufs) (ceased : e.Over)
    (hworks : e.Works s.dev) (hfinds : Finds e isr pend) :
    Yields (processPending isr pend) (fun _ t => Served x r bytes e t) s := by
  refine yields_pending_sent hfinds.arbLost (hfinds.txError.eq_zero ceased.txError)
    (hfinds.rxFull.eq_zero ceased.rxFull) ?_
  refine (meets_bind _ _).mpr ((meets_ite _ _ _).mpr ⟨fun _ => (meets_pure _).mpr ?_,
    fun hc => absurd (.inr (hfinds.bnb.eq_zero ceased.bnb)) hc⟩)
  refine (meets_bind _ _).mpr ((yields_processTx_idle idle _ _ _).imp ?_)
  rintro clr _ ⟨rfl, hagrees⟩
  refine (yields_finish ReadEndRegs.stable_over ?_).imp ?_
  · rw [hagrees.flip_eq]
    exact ReadEndRegs.stable_over.works ceased hworks
  · rintro _ u ⟨humem, hu⟩
    refine ⟨.inr ⟨fun herr => absurd (ceased.txError.symm.trans herr) nofun, ?_⟩,
      fun _ => humem ▸ idle.txMsg⟩
    exact .ended (humem ▸ idle) (humem ▸ state) (humem ▸ stored) hu

/-- A run of the interrupt thread. -/
theorem served_process (hx : LastRead x r) (hlen : bytes.length = r.len.toNat)
    (h : Orderly x r bytes s.mem s.dev) :
    Yields xiicProcess (fun _ t => Served x r bytes s.dev t) s := by
  have hheard : s.dev.txError = true ∨ s.dev.rxFull = true ∨ s.dev.bnb = true → s.dev.Heard := by
    have hsilent : ∀ {e : ReadEndRegs}, e.txError = false → e.rxFull = false → e.bnb = false →
        ¬(e.txError = true ∨ e.rxFull = true ∨ e.bnb = true) := by
      intro e herr hfull hbnb
      simp [herr, hfull, hbnb]
    cases h with
    | writing live write rx waits =>
      exact fun hr => absurd hr (hsilent waits.txError waits.rxFull waits.bnb)
    | reading atEnd rx pos lt stored receives filled heard => exact fun _ => heard
    | complete atEnd rx stored flows rxFull heard => exact fun _ => heard
    | ended idle state stored ceased =>
      exact fun hr => absurd hr (hsilent ceased.txError ceased.rxFull ceased.bnb)
  refine yields_process hheard fun isr pend u hmem hworks hfinds => ?_
  cases h with
  | writing live write rx waits =>
    exact served_writing hx hlen (hmem ▸ live) write (hmem ▸ rx) waits hworks hfinds
  | reading atEnd rx pos lt stored receives filled heard =>
    cases hfull : s.dev.rxFull with
    | true =>
      exact served_filled hlen (hmem ▸ atEnd) (hmem ▸ rx) (hmem ▸ pos) lt (hmem ▸ stored) receives
        filled heard hworks hfinds hfull
    | false =>
      cases herr : s.dev.txError with
      | true => exact served_broken (hmem ▸ atEnd.live) hfinds herr hfull
      | false =>
        exact served_pausing (hmem ▸ atEnd) (hmem ▸ rx) (hmem ▸ pos) lt (hmem ▸ stored) receives
          filled heard hworks hfinds hfull herr
  | complete atEnd rx stored flows rxFull heard =>
    exact served_complete hlen (hmem ▸ atEnd) (hmem ▸ rx) (hmem ▸ stored) flows rxFull heard hworks
      hfinds
  | ended idle state stored ceased =>
    exact served_ended (hmem ▸ idle) (hmem ▸ state) (hmem ▸ stored) ceased hworks hfinds

end Phases

section Runs

variable {x : Transfer} {r : I2cMsg} {bytes : List (BitVec 8)} {found : List ReadEndRegs}
  {s : Sys ReadEndRegs}

/-- The states of a transfer whose read answers with the bytes. A run of the interrupt thread
adds the device as it finds it; between two runs the device gets to the command of the read, and
works by itself. -/
inductive EndReached (x : Transfer) (bytes : List (BitVec 8)) :
    List ReadEndRegs → Sys ReadEndRegs → Prop where
  | start {s t : Sys ReadEndRegs} (idle : Idle s.mem) (trace : s.trace = [])
      (unread : s.dev.Unread bytes)
      (run : Exec (withMemory readEnd) (startTransfer x.msgs x.bufs) s () t) :
      EndReached x bytes [] t
  | process {found : List ReadEndRegs} {s t : Sys ReadEndRegs} (h : EndReached x bytes found s)
      (run : Exec (withMemory readEnd) xiicProcess s () t) :
      EndReached x bytes (found ++ [s.dev]) t
  | begin {found : List ReadEndRegs} {s : Sys ReadEndRegs} (h : EndReached x bytes found s)
      (command : s.mem.rxMsg ≠ none) :
      EndReached x bytes found (s.withDev { s.dev with reading := true })
  | device {found : List ReadEndRegs} {s : Sys ReadEndRegs} {e : ReadEndRegs}
      (h : EndReached x bytes found s) (step : s.dev.Step e) : EndReached x bytes found (s.withDev e)

/-- TX_ERROR was found with RX_FULL only. -/
def Together (found : List ReadEndRegs) : Prop :=
  ∀ e ∈ found, e.txError = true → e.rxFull = true

theorem EndReached.good (h : EndReached x bytes found s) : Good x s.core := by
  induction h with
  | @start s t idle trace unread run =>
    have hs : InBounds x.msgs s.core := by simp [InBounds, Config.core, trace]
    obtain ⟨hin, hlive⟩ := exec_of_meets (start_good idle hs) run
    exact ⟨hin, .inr hlive⟩
  | process _ run ih => exact exec_of_meets (process_good ih) run
  | begin _ _ ih => exact ih
  | device _ _ ih => exact ih

/-- The transfer is on its way as long as TX_ERROR is found with RX_FULL only, and has failed
otherwise. -/
theorem EndReached.outcome (hx : LastRead x r) (hlen : bytes.length = r.len.toNat)
    (h : EndReached x bytes found s) : (Together found ∧ Orderly x r bytes s.mem s.dev) ∨
      (¬Together found ∧ Idle s.mem ∧ s.mem.state = .error) := by
  induction h with
  | start idle trace unread run =>
    refine .inl ⟨nofun, ?_⟩
    obtain ⟨e, hw, hread | hwrite⟩ := (yields_start hx idle unread).2 _ _ run
    · exact hread.orderly hx hlen hw
    · exact hwrite.orderly hw
  | @process found s t _ run ih =>
    have hall : Together (found ++ [s.dev]) ↔
        Together found ∧ (s.dev.txError = true → s.dev.rxFull = true) := by
      simp only [Together, List.forall_mem_append, List.forall_mem_singleton]
    rw [hall]
    rcases ih with ⟨htogether, horderly⟩ | ⟨hnot, hidle, hstate⟩
    · rcases ((served_process hx hlen horderly).2 _ _ run).outcome with ⟨hno, hidle, hstate⟩ | ⟨hyes, ht⟩
      · exact .inr ⟨fun hc => hno hc.2, hidle, hstate⟩
      · exact .inl ⟨⟨htogether, hyes⟩, ht⟩
    · have hmem := (quiet_of_idle hidle run).1
      exact .inr ⟨fun hc => hnot hc.1, hmem ▸ hidle, hmem ▸ hstate⟩
  | begin _ command ih =>
    rcases ih with ⟨htogether, horderly⟩ | ⟨hnot, hidle, hstate⟩
    · exact .inl ⟨htogether, horderly.begin command⟩
    · exact .inr ⟨hnot, hidle, hstate⟩
  | device _ step ih =>
    rcases ih with ⟨htogether, horderly⟩ | ⟨hnot, hidle, hstate⟩
    · exact .inl ⟨htogether, horderly.works hlen (.single step)⟩
    · exact .inr ⟨hnot, hidle, hstate⟩

/-- The bytes that a loop has still to take from the device. -/
def ReadEndRegs.left (e : ReadEndRegs) : ℕ := e.fifo.length + e.coming.length

theorem ReadEndRegs.stable_left (k : ℕ) : ReadEndRegs.Stable fun e => e.left ≤ k := by
  intro e e' hle hstep
  cases hstep with
  | arrive _ hcoming =>
    rw [left, hcoming, List.length_cons] at hle
    simp only [left, List.length_append, List.length_singleton]
    omega
  | _ => exact hle

theorem ReadEndRegs.stable_fifo : ReadEndRegs.Stable fun e => e.fifo ≠ [] := by
  intro e e' hne hstep
  cases hstep with
  | arrive => simp
  | _ => exact hne

/-- The loop that empties the RX FIFO takes a byte each time. -/
theorem empties_readEnd : Empties readEnd := by
  intro s
  refine total_iterate (fun _ _ => True) (fun _ t => t.dev.left) trivial ?_ ?_
  · intro _ t _
    simp only [total_bind, ends_getreg8, total_ite, total_pure, implies_true, and_self]
  · intro _ t b' u _ hexec
    refine ⟨trivial, ?_⟩
    have body : Yields (do
        let sr ← xiicGetreg8 .sr
        if sr &&& srRxFifoEmptyMask ≠ 0 then return .inr ()
        let _ ← xiicGetreg8 .drr
        return .inl ()) (fun (q : Unit ⊕ Unit) u => q = .inl b' → u.dev.left < t.dev.left) t := by
      refine (meets_bind _ _).mpr ((meets_dev_getreg8 _).mpr ?_)
      rintro v e ⟨_, ⟨hempty, rfl⟩, hworks⟩
      refine ⟨trivial, (meets_ite _ _ _).mpr ⟨fun _ => (meets_pure _).mpr (by simp), fun hne => ?_⟩⟩
      have hle : e.left ≤ t.dev.left := (ReadEndRegs.stable_left _).works le_rfl hworks
      have hfifo : e.fifo ≠ [] := ReadEndRegs.stable_fifo.works (fun h => hne (hempty.mpr h)) hworks
      obtain ⟨b, rest, hcons⟩ := List.exists_cons_of_ne_nil hfifo
      refine (meets_bind _ _).mpr ((meets_dev_getreg8 _).mpr ?_)
      rintro byte e' ⟨e₁, haccess, hworks'⟩
      simp only [ReadEndRegs.access, Config.withDev_dev, hcons] at haccess
      obtain ⟨-, rfl⟩ := haccess
      refine ⟨trivial, (meets_pure _).mpr fun _ => ?_⟩
      have hless : e'.left ≤ rest.length + e.coming.length :=
        (ReadEndRegs.stable_left _).works le_rfl hworks'
      rw [ReadEndRegs.left, hcons, List.length_cons] at hle
      simp only [Config.withDev_dev]
      omega
    exact body.2 _ _ hexec rfl

/-- Behind the end of the transfer on the bus the hard interrupt handler wakes the thread. -/
theorem Orderly.wakes (h : Orderly x r bytes s.mem s.dev) (htx : s.mem.txMsg ≠ none)
    (hstopped : s.dev.stopped = true) : Yields xiicIsr (fun woken _ => woken = true) s := by
  have hbnb : s.dev.bnb = true ∧ s.dev.Heard := by
    cases h with
    | writing live write rx waits => exact absurd (waits.stopped.symm.trans hstopped) nofun
    | reading atEnd rx pos lt stored receives filled heard =>
      exact ⟨receives.bnb.trans hstopped, heard⟩
    | complete atEnd rx stored flows rxFull heard => exact ⟨flows.bnb.trans hstopped, heard⟩
    | ended idle state stored ceased => exact absurd idle.txMsg htx
  refine (meets_bind _ _).mpr ((meets_dev_getreg32 _).mpr ?_)
  rintro isr _ ⟨_, ⟨⟨-, -, -, hshows⟩, rfl⟩, hworks⟩
  refine ⟨trivial, (meets_bind _ _).mpr ((meets_dev_getreg32 _).mpr ?_)⟩
  rintro _ _ ⟨e, ⟨rfl, rfl⟩, -⟩
  have hheard : e.Heard := ReadEndRegs.stable_heard.works hbnb.2 hworks
  refine ⟨trivial, (meets_pure _).mpr (decide_eq_true fun hzero => ?_)⟩
  have hpend := (hshows.enabled fun _ => hheard.enables (by decide)).mpr hbnb.1
  rw [Config.withDev_dev] at hzero
  rw [hzero] at hpend
  exact hpend BitVec.zero_and

/-- The end of a read whose bytes arrive and whose interrupts are raised and found in any order:
a transfer that has ended is done, with the whole read in its buffer, if and only if no run has
found TX_ERROR without RX_FULL. Every run ends; behind the end of the transfer on the bus the
thread is woken, and its next run ends the transfer. -/
theorem read_end_iff (x : Transfer) (r : I2cMsg) (bytes : List (BitVec 8)) (hx : LastRead x r)
    (hlen : bytes.length = r.len.toNat) (found : List ReadEndRegs) (s : Sys ReadEndRegs)
    (h : EndReached x bytes found s) :
    (s.mem.txMsg = none →
      ((s.mem.state = .done ∧ Stored (x.msgs.length - 1) bytes r.len.toNat s.mem.bufs) ↔
        ∀ e ∈ found, e.txError = true → e.rxFull = true)) ∧
    Total (withMemory readEnd) xiicProcess s ∧
    (s.dev.stopped = true →
      (s.mem.txMsg ≠ none → ∀ woken t, Exec (withMemory readEnd) xiicIsr s woken t → woken = true) ∧
      ∀ t, Exec (withMemory readEnd) xiicProcess s () t → t.mem.txMsg = none) := by
  refine ⟨fun hnone => ?_, ends_process empties_readEnd h.good, fun hstopped => ?_⟩
  · rcases h.outcome hx hlen with ⟨htogether, horderly⟩ | ⟨hnot, hidle, hstate⟩
    · refine iff_of_true ?_ htogether
      cases horderly with
      | writing live write rx waits => exact absurd (hnone.symm.trans live.txMsg) nofun
      | reading atEnd rx pos lt stored receives filled heard =>
        exact absurd (hnone.symm.trans atEnd.live.txMsg) nofun
      | complete atEnd rx stored flows rxFull heard =>
        exact absurd (hnone.symm.trans atEnd.live.txMsg) nofun
      | ended idle state stored ceased => exact ⟨state, stored⟩
    · refine iff_of_false (fun hdone => ?_) hnot
      exact absurd (hstate.symm.trans hdone.1) nofun
  · rcases h.outcome hx hlen with ⟨-, horderly⟩ | ⟨-, hidle, -⟩
    · exact ⟨fun htx woken t run => (horderly.wakes htx hstopped).2 woken t run,
        fun t run => ((served_process hx hlen horderly).2 () t run).ends hstopped⟩
    · refine ⟨fun htx => absurd hidle.txMsg htx, fun t run => ?_⟩
      rw [(quiet_of_idle hidle run).1]
      exact hidle.txMsg

instance (v mask : BitVec 32) (raised : Bool) : Decidable (Shows v mask raised) :=
  inferInstanceAs (Decidable (_ ↔ _))

/-- The word of `IISR` with these interrupts and no other. -/
def raisedWord (txError rxFull bnb : Bool) : BitVec 32 :=
  (if txError then intrTxErrorMask else 0) ||| (if rxFull then intrRxFullMask else 0) |||
    (if bnb then intrBnbMask else 0)

theorem shows_raisedWord : ∀ txError rxFull bnb : Bool,
    Shows (raisedWord txError rxFull bnb) intrArbLostMask false ∧
    Shows (raisedWord txError rxFull bnb) intrTxErrorMask txError ∧
    Shows (raisedWord txError rxFull bnb) intrRxFullMask rxFull ∧
    Shows (raisedWord txError rxFull bnb) intrBnbMask bnb := by
  decide

/-- A device that sends every word at once, and does nothing else by itself. -/
def sendingAtOnce (e : ReadEndRegs) (_ : Unit) : (p : Port) → Option (Port.Res p × ReadEndRegs)
  | .getreg32 .iisr => some (raisedWord e.txError e.rxFull e.bnb, e)
  | .setreg32 .iisr v => some ((), e.flip v)
  | .getreg32 .iier => some (e.iier, e)
  | .setreg32 .iier v => some ((), { e with iier := v })
  | .getreg8 .tfo => if e.level ≤ 1 then some (0, e) else none
  | .setreg16 .dtr _ => some ((), { e with level := 0 })
  | .getreg8 .rfo => some (BitVec.ofNat 8 (e.fifo.length - 1), e)
  | .getreg8 .sr => some (if e.fifo = [] then srRxFifoEmptyMask else 0, e)
  | .getreg8 .drr => some (e.fifo.headD 0, { e with fifo := e.fifo.tail })
  | .setreg8 .rfd v => some ((), { e with rfd := v.toNat })
  | .setreg32 .resetr _ => some ((), e.reset)
  | p => some (drained p, e)

theorem sendingAtOnce_refines : (ofAnswer sendingAtOnce).Refines readEnd id := by
  rintro e p v e' ⟨_, h⟩
  cases p with
  | getreg8 reg =>
    cases reg with
    | tfo =>
      simp only [sendingAtOnce] at h
      split at h
      · rename_i hlevel
        obtain ⟨rfl, rfl⟩ := Prod.mk.inj (Option.some.inj h)
        exact ⟨e, ⟨(Nat.sub_eq_zero_of_le hlevel).symm, rfl⟩, .refl⟩
      · exact absurd h nofun
    | rfo =>
      obtain ⟨rfl, rfl⟩ := Prod.mk.inj (Option.some.inj h)
      exact ⟨e, ⟨rfl, rfl⟩, .refl⟩
    | sr =>
      obtain ⟨rfl, rfl⟩ := Prod.mk.inj (Option.some.inj h)
      refine ⟨e, ⟨?_, rfl⟩, .refl⟩
      split
      · rename_i hfifo
        exact ⟨fun _ => hfifo, fun _ => by decide⟩
      · rename_i hfifo
        exact ⟨fun hne => absurd (by decide) hne, fun hc => absurd hc hfifo⟩
    | drr =>
      obtain ⟨rfl, rfl⟩ := Prod.mk.inj (Option.some.inj h)
      refine ⟨_, ?_, .refl⟩
      cases hfifo : e.fifo with
      | nil =>
        simp only [ReadEndRegs.access, id, hfifo, List.tail_nil]
        rw [← hfifo]
      | cons b rest =>
        simp only [ReadEndRegs.access, id, hfifo, List.headD_cons, List.tail_cons, and_self]
    | _ =>
      obtain ⟨rfl, rfl⟩ := Prod.mk.inj (Option.some.inj h)
      exact ⟨e, rfl, .refl⟩
  | getreg32 reg =>
    cases reg with
    | iisr =>
      obtain ⟨rfl, rfl⟩ := Prod.mk.inj (Option.some.inj h)
      exact ⟨e, ⟨shows_raisedWord _ _ _, rfl⟩, .refl⟩
    | iier =>
      obtain ⟨rfl, rfl⟩ := Prod.mk.inj (Option.some.inj h)
      exact ⟨e, ⟨rfl, rfl⟩, .refl⟩
    | _ =>
      obtain ⟨rfl, rfl⟩ := Prod.mk.inj (Option.some.inj h)
      exact ⟨e, rfl, .refl⟩
  | setreg8 reg w =>
    cases reg with
    | _ =>
      obtain ⟨_, rfl⟩ := Prod.mk.inj (Option.some.inj h)
      exact ⟨_, rfl, .refl⟩
  | setreg16 reg w =>
    cases reg with
    | dtr =>
      obtain ⟨_, rfl⟩ := Prod.mk.inj (Option.some.inj h)
      exact ⟨_, rfl, .single (.drain (Nat.zero_le _))⟩
    | _ =>
      obtain ⟨_, rfl⟩ := Prod.mk.inj (Option.some.inj h)
      exact ⟨_, rfl, .refl⟩
  | setreg32 reg w =>
    cases reg with
    | _ =>
      obtain ⟨_, rfl⟩ := Prod.mk.inj (Option.some.inj h)
      exact ⟨_, rfl, .refl⟩

/-- The device before a read that answers with one byte. -/
def unreadByte : ReadEndRegs :=
  ⟨0, [], [0x5A], 0, false, false, false, 0, false, false, false, false⟩

namespace ReadEndRegs

def arrived (e : ReadEndRegs) : ReadEndRegs :=
  { e with reading := true, fifo := e.fifo ++ [0x5A], coming := [], rxFull := true,
           full := e.full || true }

def refused (e : ReadEndRegs) : ReadEndRegs := { e with txError := true, nacked := true }

def freed (e : ReadEndRegs) : ReadEndRegs := { e with bnb := true, stopped := true }

end ReadEndRegs

def Awaiting (s : Sys ReadEndRegs) : Prop :=
  s.mem.rxMsg = some 0 ∧ s.dev.coming = [0x5A] ∧ s.dev.fifo = [] ∧ s.dev.rfd = 0 ∧
    s.dev.nacked = false ∧ s.dev.stopped = false

instance (s : Sys ReadEndRegs) : Decidable (Awaiting s) := inferInstanceAs (Decidable (_ ∧ _))

theorem EndReached.arrived (h : EndReached x bytes found s) (hs : Awaiting s) :
    EndReached x bytes found (s.withDev s.dev.arrived) := by
  obtain ⟨hrx, hcoming, hfifo, hrfd, -⟩ := hs
  have hbyte := (h.begin (by simp [hrx])).device (.arrive rfl hcoming (by simp [hfifo]))
  refine hbyte.device (.rxFull rfl ?_)
  simp [hfifo, hrfd]

theorem lastRead_oneRead : LastRead (oneRead 1) ⟨0x50, i2cMRd, 1⟩ := by
  refine ⟨rfl, by decide, fun i m _ hlt => ?_, by decide⟩
  exact absurd hlt (by simp [oneRead])

/-- All three interrupts of a read of one byte are found by one run. -/
theorem read_end_together : ∃ found s, EndReached (oneRead 1) [0x5A] found s ∧
    s.mem.txMsg = none ∧ s.mem.state = .done ∧ s.mem.bufs 0 0 = 0x5A := by
  have href := withMemory_refines (D := XiicI2c) (E := Event) sendingAtOnce_refines
  have hdevice := onDevice_refines (D := XiicI2c) (E := Event) sendingAtOnce fun _ _ => ()
  have hrun : ((run (onDevice sendingAtOnce fun _ _ => ()) 40
      (startTransfer (oneRead 1).msgs (oneRead 1).bufs) ⟨probed, [], unreadByte⟩).bind fun a =>
        (run (onDevice sendingAtOnce fun _ _ => ()) 40 xiicProcess
          (a.2.withDev a.2.dev.arrived.refused.freed)).map fun b =>
          (decide (Awaiting a.2), b.2.mem.txMsg)) = some (true, none) := by
    decide +kernel
  obtain ⟨⟨_, s⟩, hstart, hprocess⟩ := Option.bind_eq_some_iff.mp hrun
  obtain ⟨_, s', hexec, rfl⟩ := exec_of_run id (congrArg (Option.map fun q => id q.2) hstart)
  obtain ⟨_, t, hexec', hend⟩ :=
    exec_of_run (fun t : Sys ReadEndRegs => (decide (Awaiting s'), t.mem.txMsg)) hprocess
  obtain ⟨hawaiting, hnone⟩ := Prod.mk.inj hend
  have hs : Awaiting s' := of_decide_eq_true hawaiting
  have hbyte := (@EndReached.start (oneRead 1) [0x5A] _ _ ⟨rfl, rfl, rfl⟩ rfl
    ⟨rfl, rfl, rfl, rfl, rfl⟩ (href.exec _ (hdevice.exec _ hexec))).arrived hs
  have hlast := (hbyte.device (.txError rfl rfl hs.2.2.2.2.1)).device
    (.bnb rfl rfl (Bool.or_true _) hs.2.2.2.2.2)
  have hreach := hlast.process (href.exec _ (hdevice.exec _ hexec'))
  have hall := (read_end_iff (oneRead 1) ⟨0x50, i2cMRd, 1⟩ [0x5A] lastRead_oneRead rfl _ t hreach).1
    hnone
  have htogether : ∀ e ∈ [] ++ [s'.dev.arrived.refused.freed], e.txError = true → e.rxFull = true := by
    rintro e he -
    obtain rfl := List.mem_singleton.mp he
    rfl
  obtain ⟨hstate, hstored⟩ := hall.mpr htogether
  exact ⟨_, t, hreach, hnone, hstate, (Option.some.inj (hstored 0 (by decide))).symm⟩

/-- RX_FULL is found by one run and TX_ERROR by the next: the byte is in the buffer, and the
transfer ends with an error. -/
theorem read_end_apart : ∃ found s, EndReached (oneRead 1) [0x5A] found s ∧
    found.map (fun e => (e.rxFull, e.txError)) = [(true, false), (false, true)] ∧
    s.mem.txMsg = none ∧ s.mem.state = .error ∧ s.mem.bufs 0 0 = 0x5A := by
  have href := withMemory_refines (D := XiicI2c) (E := Event) sendingAtOnce_refines
  have hdevice := onDevice_refines (D := XiicI2c) (E := Event) sendingAtOnce fun _ _ => ()
  have hrun : ((run (onDevice sendingAtOnce fun _ _ => ()) 40
      (startTransfer (oneRead 1).msgs (oneRead 1).bufs) ⟨probed, [], unreadByte⟩).bind fun a =>
        (run (onDevice sendingAtOnce fun _ _ => ()) 40 xiicProcess
          (a.2.withDev a.2.dev.arrived)).bind fun b =>
        (run (onDevice sendingAtOnce fun _ _ => ()) 40 xiicProcess
          (b.2.withDev b.2.dev.refused)).map fun c =>
          (decide (Awaiting a.2 ∧ a.2.dev.txError = false),
            decide (b.2.dev.reading = true ∧ b.2.dev.coming = [] ∧ b.2.dev.nacked = false ∧
              b.2.dev.rxFull = false),
            decide (c.2.mem.txMsg = none ∧ c.2.mem.state = .error ∧ c.2.mem.bufs 0 0 = 0x5A))) =
      some (true, true, true) := by
    decide +kernel
  obtain ⟨⟨_, s⟩, hstart, hrest⟩ := Option.bind_eq_some_iff.mp hrun
  obtain ⟨_, s', hexec, rfl⟩ := exec_of_run id (congrArg (Option.map fun q => id q.2) hstart)
  obtain ⟨⟨_, t⟩, hfirst, hsecond⟩ := Option.bind_eq_some_iff.mp hrest
  obtain ⟨_, t', hexec', rfl⟩ := exec_of_run id (congrArg (Option.map fun q => id q.2) hfirst)
  obtain ⟨_, u, hexec'', hend⟩ := exec_of_run (fun u : Sys ReadEndRegs =>
    (decide (Awaiting s' ∧ s'.dev.txError = false),
      decide (t'.dev.reading = true ∧ t'.dev.coming = [] ∧ t'.dev.nacked = false ∧
        t'.dev.rxFull = false),
      decide (u.mem.txMsg = none ∧ u.mem.state = .error ∧ u.mem.bufs 0 0 = 0x5A))) hsecond
  simp only [Prod.mk.injEq, decide_eq_true_eq] at hend
  obtain ⟨⟨hawaiting, herr⟩, ⟨hreading, hcoming, hnacked, hfull⟩, hnone, hstate, hbyte⟩ := hend
  have hbegun := (@EndReached.start (oneRead 1) [0x5A] _ _ ⟨rfl, rfl, rfl⟩ rfl
    ⟨rfl, rfl, rfl, rfl, rfl⟩ (href.exec _ (hdevice.exec _ hexec))).arrived hawaiting
  have hread := hbegun.process (href.exec _ (hdevice.exec _ hexec'))
  have hfailed := (hread.device (.txError hreading hcoming hnacked)).process
    (href.exec _ (hdevice.exec _ hexec''))
  refine ⟨_, u, hfailed, ?_, hnone, hstate, hbyte⟩
  have hpair : (s'.dev.arrived.rxFull, s'.dev.arrived.txError) = (true, false) :=
    Prod.ext rfl herr
  have hpair' : (t'.dev.refused.rxFull, t'.dev.refused.txError) = (false, true) :=
    Prod.ext hfull rfl
  exact congrArg₂ (fun a b => [a, b]) hpair hpair'

end Runs

end PynqPrio.Iic
