import PynqPrio.IicCursor

/-!
# Message-buffer safety over whole runs

The device is adversarial: every register may read anything at any time, except that
the status register eventually reports an empty RX FIFO. Every run of the interrupt
thread ends on it, and every state reached keeps the cursor.
-/
namespace PynqPrio.Iic
open Programs Programs.Driver Programs.Prog

/-- The status register reports bytes in the RX FIFO. -/
abbrev RxNotEmpty (sr : BitVec 8) : Prop := sr &&& srRxFifoEmptyMask = 0

/-- The state bounds how often `SR` may still report a non-empty RX FIFO before it
reports an empty one, which leaves the next bound open. -/
def adversary : Machine Port Port.Res ℕ
  | n, .getreg8 .sr, v, n' => RxNotEmpty v → n' < n
  | n, _, _, n' => n' = n

section Termination

abbrev Ends {α : Type} (p : Xiic α) (s : Sys ℕ) : Prop := Total (withMemory adversary) p s

variable {δ : Type} {dev : Machine Port Port.Res δ} {x : Transfer} {s : Sys δ} {i : ℕ} {m : I2cMsg}

@[simp] theorem ends_getreg8 (reg : Reg) :
    Total (withMemory dev) (xiicGetreg8 reg) s := total_port _
@[simp] theorem ends_getreg32 (reg : Reg) :
    Total (withMemory dev) (xiicGetreg32 reg) s := total_port _
@[simp] theorem ends_setreg8 (reg : Reg) (v : BitVec 8) :
    Total (withMemory dev) (xiicSetreg8 reg v) s := total_port _
@[simp] theorem ends_setreg32 (reg : Reg) (v : BitVec 32) :
    Total (withMemory dev) (xiicSetreg32 reg v) s :=
  total_port _

@[simp] theorem ends_setreg16 (reg : Reg) (v : BitVec 16) :
    Total (withMemory dev) (xiicSetreg16 reg v) s := by
  simp only [xiicSetreg16, total_bind, total_note, implies_true, and_true]
  exact total_port _

@[simp] theorem ends_deref (p : Option ℕ) : Total (withMemory dev) (deref p) s := by
  simp only [deref, total_bind, total_get, true_and]
  intro d t _
  split <;> simp

@[simp] theorem ends_txSpace : Total (withMemory dev) xiicTxSpace s := by simp [xiicTxSpace]
@[simp] theorem ends_rxSpace : Total (withMemory dev) xiicRxSpace s := by simp [xiicRxSpace]
@[simp] theorem ends_txFifoSpace :
    Total (withMemory dev) xiicTxFifoSpace s := by simp [xiicTxFifoSpace]
@[simp] theorem ends_irqDis (mask : BitVec 32) :
    Total (withMemory dev) (xiicIrqDis mask) s := by simp [xiicIrqDis]
@[simp] theorem ends_irqEn (mask : BitVec 32) :
    Total (withMemory dev) (xiicIrqEn mask) s := by simp [xiicIrqEn]
@[simp] theorem ends_irqClr (mask : BitVec 32) :
    Total (withMemory dev) (xiicIrqClr mask) s := by simp [xiicIrqClr]

@[simp] theorem ends_irqClrEn (mask : BitVec 32) :
    Total (withMemory dev) (xiicIrqClrEn mask) s := by
  simp [xiicIrqClrEn]

@[simp] theorem ends_wakeup (code : XilinxI2cState) :
    Total (withMemory dev) (xiicWakeup code) s := by
  simp [xiicWakeup]

/-- The loop that empties the RX FIFO ends when the status register says so. -/
@[simp] theorem ends_clearRxFifo {s : Sys ℕ} : Ends xiicClearRxFifo s := by
  refine total_iterate (fun _ _ => True) (fun _ t => t.dev) trivial ?_ ?_
  · intro _ t _
    simp only [total_bind, ends_getreg8, total_ite, total_pure, implies_true, and_self]
  · intro _ t b' u _ hexec
    refine ⟨trivial, ?_⟩
    have body : Meets (withMemory adversary) (fun _ _ => True) (do
        let sr ← xiicGetreg8 .sr
        if sr &&& srRxFifoEmptyMask ≠ 0 then return .inr ()
        let _ ← xiicGetreg8 .drr
        return .inl ()) (fun (r : Unit ⊕ Unit) u => r = .inl b' → u.dev < t.dev) t := by
      simp only [meets_bind, meets_ite, meets_pure]
      refine (meets_port _).mpr fun v n hn => ⟨fun _ => trivial, fun _ => by simp, fun hne => ?_⟩
      refine (meets_port _).mpr fun w n' hn' => ⟨fun _ => trivial, fun _ => ?_⟩
      obtain rfl : n' = n := hn'
      exact hn (not_not.mp hne)
    exact body.2 _ _ hexec rfl

/-- The RX FIFO can be emptied. -/
abbrev Empties (dev : Machine Port Port.Res δ) : Prop :=
  ∀ t, Total (withMemory dev) xiicClearRxFifo t

theorem ends_reinit (hclear : Empties dev) : Total (withMemory dev) xiicReinit s := by
  simp [xiicReinit, hclear]

@[simp] theorem ends_storeRxByte : Total (withMemory dev) storeRxByte s := by
  simp only [storeRxByte, total_bind, ends_getreg8, total_get, true_and]
  intro byte _ _ d t _
  split <;> simp

@[simp] theorem ends_readRx : Total (withMemory dev) xiicReadRx s := by
  simp only [xiicReadRx, total_bind, ends_getreg8, ends_rxSpace, ends_setreg8, true_and,
    implies_true, and_true]
  intro rfo _ _ space t _
  generalize (if (u8 (rfo.toNat + 1) : ℤ) > space then u8 space else u8 (rfo.toNat + 1)) = n
  refine total_iterate (fun _ _ => True) (fun k _ => n - k) trivial ?_ ?_
  · intro k u _
    simp
  · intro k u k' v _ hexec
    refine ⟨trivial, ?_⟩
    by_cases hlt : k < n
    · rw [if_pos hlt] at hexec
      obtain ⟨_, w, _, hret⟩ := (exec_bind _ _ _ _ _).mp hexec
      obtain rfl : k' = k + 1 := Sum.inl.inj hret.1
      omega
    · rw [if_neg hlt] at hexec
      exact absurd hexec.1 (by simp)

@[simp] theorem ends_fillTxWord : Total (withMemory dev) fillTxWord s := by
  have hload : ∀ t, Total (withMemory dev) loadTxByte t := by
    intro t
    simp only [loadTxByte, total_bind, total_get, true_and]
    intro d u _
    split <;> simp
  simp [fillTxWord, hload]

/-- Inside the message the count of the fill loop is not negative, so the loop ends. -/
theorem ends_fillTxFifo (h : Live x s.mem i m) : Total (withMemory dev) xiicFillTxFifo s := by
  have hlen := len_lt m
  refine total_bind_of_meets (G := free) (Q := fun _ t => t.mem = s.mem) (by simp)
    (by rw [meets_txFifoSpace]; exact fun _ => rfl) ?_
  intro fifoSpace t ht
  have hlive : Live x t.core.mem i m := ht ▸ h
  refine total_bind_of_meets (G := free)
    (Q := fun space _ => space = m.len.toNat - t.mem.txPos) (by simp) ?_ ?_
  · refine (meets_txSpace hlive.txMsg hlive.toAt.get).mpr ⟨trivial, ?_⟩
    exact u32_sub hlen hlive.txPos
  rintro _ u rfl
  obtain ⟨n, hn⟩ : ∃ n : ℕ, (if s32 (m.len.toNat - t.mem.txPos) > u8 fifoSpace then
      (u8 fifoSpace : ℤ) else s32 (m.len.toNat - t.mem.txPos)) = n := by
    refine ⟨if m.len.toNat - t.mem.txPos > u8 fifoSpace then u8 fifoSpace
      else m.len.toNat - t.mem.txPos, ?_⟩
    have hs : s32 (m.len.toNat - t.mem.txPos) = ((m.len.toNat - t.mem.txPos : ℕ) : ℤ) := by
      simp only [s32]
      omega
    rw [hs]
    split <;> split <;> omega
  simp only [hn]
  refine total_iterate (fun len _ => 0 ≤ len) (fun len _ => len.toNat) (by omega) ?_ ?_
  · intro len v _
    simp
  · intro len v len' w hle hexec
    by_cases h0 : len = 0
    · rw [if_pos h0] at hexec
      exact absurd hexec.1 (by simp)
    · rw [if_neg h0] at hexec
      obtain ⟨_, _, _, hret⟩ := (exec_bind _ _ _ _ _).mp hexec
      obtain rfl : len' = len - 1 := Sum.inl.inj hret.1
      omega

@[simp] theorem ends_startRecv : Total (withMemory dev) xiicStartRecv s := by simp [xiicStartRecv]

theorem ends_startSend (h : Live x s.mem i m) : Total (withMemory dev) xiicStartSend s := by
  have hfill : ∀ t : Sys δ, t.core.mem = s.mem → Total (withMemory dev) (do
      xiicFillTxFifo
      xiicIrqClrEn (intrTxEmptyMask ||| intrTxErrorMask ||| intrBnbMask)) t := by
    intro t ht
    have hlive : Live x t.mem i m := ht ▸ h
    simp [ends_fillTxFifo hlive]
  refine total_bind_of_meets (G := free) (Q := fun d t => d = s.mem ∧ t.mem = s.mem) (by simp)
    (by rw [meets_any_get]; exact ⟨rfl, rfl⟩) ?_
  rintro _ t ⟨rfl, ht⟩
  refine total_bind_of_meets (G := free) (Q := fun _ t => t.mem = s.mem) (by simp) ?_ ?_
  · exact (meets_deref (i := i) (m := m) h.txMsg (ht ▸ h.toAt.get)).mpr ht
  intro msg u hu
  refine total_bind_of_meets (G := free) (Q := fun _ t => t.mem = s.mem) (by simp)
    (by rw [meets_irqClr]; exact hu) ?_
  intro _ v hv
  refine (total_ite _ _ _).mpr ⟨fun _ => ?_, fun _ => hfill v hv⟩
  refine total_bind_of_meets (G := free) (Q := fun _ t => t.mem = s.mem) (by simp)
    (by rw [meets_setreg16]; exact ⟨trivial, hv⟩) ?_
  exact fun _ w hw => hfill w hw

theorem ends_startCurrent (h : Live x s.mem i m) : Total (withMemory dev) startCurrent s := by
  refine total_bind_of_meets (G := free) (Q := fun d t => d = s.mem ∧ t.mem = s.mem) (by simp)
    (by rw [meets_any_get]; exact ⟨rfl, rfl⟩) ?_
  rintro _ t ⟨rfl, ht⟩
  refine total_bind_of_meets (G := free) (Q := fun _ t => t.mem = s.mem) (by simp) ?_ ?_
  · exact (meets_deref (i := i) (m := m) h.txMsg (ht ▸ h.toAt.get)).mpr ht
  intro msg u hu
  have hlive : Live x u.mem i m := (show u.mem = s.mem from hu) ▸ h
  refine (total_ite _ _ _).mpr ⟨fun _ => by simp, fun _ => ?_⟩
  simp [ends_startSend hlive]

theorem ends_startXferBody (h : Starting x s.core) (first : Bool) (space : ℤ) :
    Total (withMemory dev) (startXferBody first space) s := by
  obtain ⟨hs, h0, i, m, h⟩ := h
  refine total_bind_of_meets (G := free) (Q := fun d t => d = s.mem ∧ t.mem = s.mem) (by simp)
    (by rw [meets_any_get]; exact ⟨rfl, rfl⟩) ?_
  rintro _ t ⟨rfl, ht⟩
  replace ht : t.mem = s.mem := ht
  refine (total_ite _ _ _).mpr ⟨fun hc => (total_ite _ _ _).mpr ⟨fun hfirst => ?_, fun _ => ?_⟩,
    fun _ => total_pure _⟩
  · have hn : 1 < s.mem.nmsgs := by simpa [hfirst] using hc.2
    obtain ⟨m', h'⟩ := h.next hn
    refine total_bind_of_meets (G := free) (Q := fun _ t => t.mem =
      { s.mem with nmsgs := u32 (s.mem.nmsgs - 1), txMsg := s.mem.txMsg.map (· + 1) })
      (by simp [nextMsg]) ?_ ?_
    · simp [nextMsg, ht, Config.core]
    intro _ u hu
    refine total_bind_of_meets (G := free) (Q := fun _ t => Live x t.mem (i + 1) m') (by simp)
      ?_ fun _ v hv => ends_startCurrent hv
    simp only [meets_any_modify, true_and, implies_true]
    rw [Config.withMem_mem, hu]
    exact h'
  · exact ends_startCurrent (ht ▸ h)

theorem ends_startXferUnlocked (h : At x s.mem i m) (hs : InBounds x.msgs s.core) :
    Total (withMemory dev) xiicStartXferUnlocked s := by
  refine total_bind_of_meets (G := free) (Q := fun _ t => t = s.core) (by simp)
    (by rw [meets_txFifoSpace]; exact fun _ => rfl) ?_
  intro fifoSpace t ht
  refine total_bind_of_meets (G := free) (Q := fun d t => d = s.mem ∧ t = s.core) (by simp)
    (by rw [meets_any_get]; exact ⟨congrArg Config.mem ht, ht⟩) ?_
  rintro _ u ⟨rfl, hu⟩
  rw [h.txMsg]
  refine total_bind_of_meets (G := free)
    (Q := fun _ t => t = s.core.noted (.startXfer i s.mem.rxMsg fifoSpace)) (by simp)
    (by rw [meets_any_note, hu]; exact ⟨trivial, rfl⟩) ?_
  intro _ v hv
  refine total_bind_of_meets (G := free) (Q := fun _ t => Starting x t) (by simp) ?_ ?_
  · rw [meets_any_modify, hv]
    refine ⟨fun _ => trivial, (inBounds_noted _).mpr ⟨hs, trivial⟩, rfl, i, m,
      ⟨h.msgs, h.txMsg, h.msg, h.nmsgs, h.rx⟩, Nat.zero_le _, ?_, rfl⟩
    intro j r _ _
    simp
  intro _ w hw
  simp only [total_bind]
  refine ⟨?_, fun returned y _ => ?_⟩
  · -- `nmsgs` goes down with every iteration but the first, which clears `first`
    refine total_iterate (fun _ t => Starting x t.core)
      (fun st t => t.mem.nmsgs + st.1.toNat) hw ?_ ?_
    · exact fun st t ht => ends_startXferBody ht st.1 st.2
    · intro st t st' t' ht hexec
      obtain ⟨ht', hfalse, hn⟩ := exec_of_meets (startXferBody_cursor ht st.1 st.2) hexec
      refine ⟨ht', ?_⟩
      simp only [hfalse, Bool.toNat_false]
      exact hn
  · refine (total_ite _ _ _).mpr ⟨fun _ => ?_, fun _ => total_pure _⟩
    simp only [total_bind, total_get, total_ite, total_pure, ends_txSpace, ends_irqClrEn,
      implies_true, and_true]

theorem ends_processError (hclear : Empties dev) (pend : BitVec 32) :
    Total (withMemory dev) (processError pend) s := by
  simp [processError, ends_reinit hclear]

/-- Taking the next message and starting it. -/
theorem ends_next (h : Live x s.mem i m) (hs : InBounds x.msgs s.core) (hn : 1 < s.mem.nmsgs) :
    Total (withMemory dev) (do
      nextMsg
      xiicStartXferUnlocked) s := by
  obtain ⟨m', hnext⟩ := h.toAt.next hn
  refine total_bind_of_meets (G := free)
    (Q := fun _ t => At x t.mem (i + 1) m' ∧ InBounds x.msgs t) (by simp [nextMsg]) ?_
    fun _ t ht => ends_startXferUnlocked (s := t) ht.1 ht.2
  simp only [nextMsg, meets_any_modify, true_and, implies_true]
  exact ⟨hnext, hs⟩

theorem ends_processRx (hclear : Empties dev) (h : Good x s.core) (isr pend clr : BitVec 32) :
    Total (withMemory dev) (processRx isr pend clr) s := by
  refine (total_ite _ _ _).mpr ⟨fun _ => total_pure _, fun _ => ?_⟩
  refine total_bind_of_meets (G := free) (Q := fun d t => d = s.mem ∧ t = s.core) (by simp)
    (by rw [meets_any_get]; exact ⟨rfl, rfl⟩) ?_
  rintro _ t ⟨rfl, ht⟩
  refine (total_ite _ _ _).mpr ⟨fun _ => by simp [hclear t], fun hrx => ?_⟩
  obtain ⟨hs, hidle | ⟨i, m, hlive⟩⟩ := h
  · exact absurd (show s.mem.rxMsg = none from hidle.rxMsg) (by simpa using hrx)
  obtain ⟨j, hj⟩ := Option.ne_none_iff_exists'.mp (by simpa using hrx)
  refine total_bind_of_meets (G := free) (Q := fun _ t => InBounds x.msgs t ∧ Live x t.mem i m ∧
    t.mem.rxMsg = some j) (by simp) (by rw [ht]; exact readRx_live hlive hj hs) ?_
  intro _ u hpost
  obtain ⟨hu, hlive', hj'⟩ := hpost
  obtain ⟨_, r, hr, _⟩ := hlive'.rx j hj'
  refine total_bind_of_meets (G := free) (Q := fun _ t => InBounds x.msgs t ∧ Live x t.mem i m)
    (by simp) ?_ ?_
  · refine (meets_rxSpace hj' (hlive'.msgs ▸ hr)).mpr ⟨trivial, ?_, hlive'⟩
    exact (inBounds_noted _).mpr ⟨hu, hlive'.rxPos j r hj' hr⟩
  intro space v hpost
  obtain ⟨hv, hvlive⟩ := hpost
  refine (total_ite _ _ _).mpr ⟨fun _ => total_pure _, fun _ => ?_⟩
  refine total_bind_of_meets (G := free) (Q := fun _ t => InBounds x.msgs t ∧ Live x t.mem i m)
    (by simp) ?_ ?_
  · rw [meets_any_modify]
    exact ⟨fun _ => trivial, hv, hvlive.clearRx⟩
  intro _ w hpost
  obtain ⟨hw, hwlive⟩ := hpost
  refine total_bind_of_meets (G := free) (Q := fun d t => d = w.mem ∧ t = w.core) (by simp)
    (by rw [meets_any_get]; exact ⟨rfl, rfl⟩) ?_
  rintro _ y ⟨rfl, hy⟩
  refine (total_ite _ _ _).mpr ⟨fun hn => ?_, fun _ => total_pure _⟩
  have hmem : y.mem = w.mem := Config.mem_of_core hy
  have hylive : Live x y.mem i m := hmem ▸ hwlive
  have hn' : 1 < y.mem.nmsgs := hmem ▸ hn
  have hends : Total (withMemory dev) (do
      nextMsg
      xiicStartXferUnlocked) y := ends_next hylive (hy ▸ hw) hn'
  simp only [total_bind] at hends ⊢
  exact ⟨hends.1, fun a t hexec => ⟨hends.2 a t hexec, fun _ _ _ => total_pure _⟩⟩

theorem ends_processBnb (out : Bool) (pend clr : BitVec 32) :
    Total (withMemory dev) (processBnb out pend clr) s := by
  simp [processBnb]

theorem ends_processTxDone (h : Live x s.mem i m) (hs : InBounds x.msgs s.core) :
    Total (withMemory dev) processTxDone s := by
  refine total_bind_of_meets (G := free) (Q := fun _ t => InBounds x.msgs t ∧ Live x t.mem i m)
    (by simp) ?_ ?_
  · refine (meets_txSpace h.txMsg h.toAt.get).mpr ⟨trivial, ?_, h⟩
    exact (inBounds_noted _).mpr ⟨hs, h.txPos⟩
  intro space t hpost
  obtain ⟨ht, hlive⟩ := hpost
  refine (total_ite _ _ _).mpr ⟨fun _ => ?_, fun _ => total_pure _⟩
  refine total_bind_of_meets (G := free) (Q := fun _ u => u = t.core) (by simp)
    (by rw [meets_txFifoSpace]; exact fun _ => rfl) ?_
  intro fifoSpace u hu
  refine total_bind_of_meets (G := free) (Q := fun d v => d = t.mem ∧ v = t.core) (by simp)
    (by rw [meets_any_get]; exact ⟨congrArg Config.mem hu, hu⟩) ?_
  rintro _ v ⟨rfl, hv⟩
  have hmem : v.mem = t.mem := Config.mem_of_core hv
  refine (total_ite _ _ _).mpr ⟨fun _ => (total_ite _ _ _).mpr ⟨fun hn => ?_, fun _ => by simp⟩,
    fun _ => (total_ite _ _ _).mpr ⟨fun _ => by simp, fun _ => total_pure _⟩⟩
  exact ends_next (hmem ▸ hlive) (hv ▸ ht) (hmem ▸ hn)

theorem ends_processTx (h : Good x s.core) (out : Bool) (pend clr : BitVec 32) :
    Total (withMemory dev) (processTx out pend clr) s := by
  refine (total_ite _ _ _).mpr ⟨fun _ => total_pure _, fun _ => ?_⟩
  refine total_bind_of_meets (G := free) (Q := fun d t => d = s.mem ∧ t = s.core) (by simp)
    (by rw [meets_any_get]; exact ⟨rfl, rfl⟩) ?_
  rintro _ t ⟨rfl, ht⟩
  refine (total_ite _ _ _).mpr ⟨fun _ => total_pure _, fun htx => ?_⟩
  obtain ⟨hs, hidle | ⟨i, m, hlive⟩⟩ := h
  · exact absurd (show s.mem.txMsg = none from hidle.txMsg) (by simpa using htx)
  have hmem : t.mem = s.mem := Config.mem_of_core ht
  refine total_bind_of_meets (G := free) (Q := fun _ t => InBounds x.msgs t ∧ Live x t.mem i m)
    (ends_fillTxFifo (hmem ▸ hlive)) ?_ ?_
  · rw [ht]
    refine (fill_cursor hlive hs).imp ?_
    intro _ u hpost
    obtain ⟨hu, p, _, hp, humem⟩ := hpost
    exact ⟨hu, humem ▸ hlive.setTxPos hp⟩
  intro _ u hpost
  obtain ⟨hu, hulive⟩ := hpost
  simp [ends_processTxDone (s := u) hulive hu]

/-- Every run of the interrupt thread ends. -/
theorem ends_process (hclear : Empties dev) (h : Good x s.core) :
    Total (withMemory dev) xiicProcess s := by
  refine total_bind_of_meets (G := free) (Q := fun _ t => t = s.core) (by simp)
    (by rw [meets_getreg32]; exact fun _ => rfl) ?_
  intro isr t ht
  refine total_bind_of_meets (G := free) (Q := fun _ t => t = s.core) (by simp)
    (by rw [meets_getreg32]; exact fun _ => ht) ?_
  intro ier u hu
  refine total_bind_of_meets (G := free) (Q := fun _ t => Good x t) (by simp) ?_ ?_
  · rw [meets_any_note, hu]
    exact ⟨trivial, h.noted trivial⟩
  intro _ v hv
  refine total_bind_of_meets (G := free) (ends_processError hclear _) (processError_good hv _) ?_
  intro _ w hw
  refine total_bind_of_meets (G := free) (ends_processRx hclear hw _ _ _) (processRx_good hw _ _ _) ?_
  intro r y hy
  refine total_bind_of_meets (G := free) (ends_processBnb _ _ _) (processBnb_good hy _ _ _) ?_
  intro r' z hz
  simp [ends_processTx hz]

/-- So does the start of a transfer. -/
theorem ends_start (hclear : Empties dev) (h : Idle s.mem) (hs : InBounds x.msgs s.core) :
    Total (withMemory dev) (startTransfer x.msgs x.bufs) s := by
  refine total_bind_of_meets (G := free) (Q := fun _ t => t = s.core.withMem (assigned x s.mem))
    (by simp [assignTransfer]) (by rw [assignTransfer, meets_any_modify]; exact ⟨fun _ => trivial, rfl⟩)
    ?_
  intro _ t ht
  refine total_bind_of_meets (G := free)
    (Q := fun _ t => At x t.mem 0 (x.msgs.get ⟨0, x.pos⟩) ∧ InBounds x.msgs t) (ends_reinit hclear)
    ?_ fun _ u hu => ends_startXferUnlocked (s := u) hu.1 hu.2
  rw [ht]
  exact meets_reinit trivial ⟨h.at_assigned, (inBounds_noted _).mpr ⟨hs, trivial⟩⟩

end Termination

section Runs

/-- The event is an access to a message buffer or a write to the TX FIFO. -/
def Event.MovesData : Event → Prop
  | .dtr _ | .load .. | .store .. => True
  | _ => False

/-- The cursor is inside the list and both positions are inside their messages. -/
structure Inside (x : Transfer) (d : XiicI2c) (i : ℕ) : Prop where
  nmsgs : i + d.nmsgs = x.msgs.length
  nmsgs_pos : 1 ≤ d.nmsgs
  txPos : ∃ m, x.msgs[i]? = some m ∧ d.txPos ≤ m.len.toNat
  rxPos : ∀ j, d.rxMsg = some j → j ≤ i ∧
    ∃ r, x.msgs[j]? = some r ∧ r.IsRead ∧ 0 ≤ d.rxPos ∧ d.rxPos ≤ r.len.toNat

/-- The safety of a state: where the cursor is while there is a transfer, that nothing
happens once there is none, that every access so far was in bounds, and that the next run
of the interrupt thread ends. -/
structure Safe (x : Transfer) (s : Sys ℕ) : Prop where
  inside : ∀ i, s.mem.txMsg = some i → Inside x s.mem i
  idle : s.mem.txMsg = none → Idle s.mem
  quiet : s.mem.txMsg = none → ∀ t, Exec (withMemory adversary) xiicProcess s () t →
    t.mem = s.mem ∧ ∃ l, t.trace = s.trace ++ l ∧ ∀ e ∈ l, ¬e.MovesData
  inBounds : ∀ e ∈ s.trace, e.InBounds x.msgs
  ends : Ends xiicProcess s

variable {x : Transfer} {s t : Sys ℕ}

theorem Live.inside {d : XiicI2c} {i : ℕ} {m : I2cMsg} (h : Live x d i m) : Inside x d i := by
  refine ⟨h.nmsgs, h.toAt.nmsgs_pos, ⟨m, h.msg, h.txPos⟩, ?_⟩
  intro j hj
  obtain ⟨hji, r, hr, hread⟩ := h.rx j hj
  have hpos := h.rxPos j r hj hr
  exact ⟨hji, r, hr, hread, hpos.1, hpos.2⟩

theorem quiet_of_idle {δ : Type} {dev : Machine Port Port.Res δ} {s t : Sys δ} (h : Idle s.mem)
    (hrun : Exec (withMemory dev) xiicProcess s () t) :
    t.mem = s.mem ∧ ∃ l, t.trace = s.trace ++ l ∧ ∀ e ∈ l, ¬e.MovesData := by
  obtain ⟨p, ht⟩ := exec_of_meets (process_idle (G := free) (s := s.core) h (fun _ => trivial)
    fun _ => trivial) hrun
  have hmem : t.core.mem = s.mem := by
    rcases ht with ht | ht
    · rw [ht]; rfl
    · rw [ht]; rfl
  refine ⟨hmem, ?_⟩
  rcases ht with ht | ht
  · exact ⟨[.pend p], congrArg (fun c => c.trace) ht, by simp [Event.MovesData]⟩
  · refine ⟨[.pend p, .reinit], ?_, by simp [Event.MovesData]⟩
    have htrace : t.trace = s.trace ++ [.pend p] ++ [.reinit] := congrArg (fun c => c.trace) ht
    rw [htrace, List.append_assoc, List.cons_append, List.nil_append]

theorem Good.safe (h : Good x s.core) : Safe x s := by
  have hcursor : Cursor x s.mem := h.2
  refine ⟨?_, ?_, ?_, h.1, ends_process (fun _ => ends_clearRxFifo) h⟩
  · intro i hi
    rcases hcursor with hidle | ⟨j, m, hlive⟩
    · exact absurd (hidle.txMsg.symm.trans hi) (by simp)
    · obtain rfl : j = i := Option.some.inj (hlive.txMsg.symm.trans hi)
      exact hlive.inside
  all_goals
    intro hnone
    have hidle : Idle s.mem := by
      rcases hcursor with hidle | ⟨j, m, hlive⟩
      · exact hidle
      · exact absurd (hnone.symm.trans hlive.txMsg) (by simp)
  · exact hidle
  · exact fun t ht => quiet_of_idle hidle ht

/-- Message-buffer safety of every run, whatever the registers read: the start of a
transfer ends, and every state of the transfer is safe. -/
theorem transfer_safe (x : Transfer) :
    (∀ s : Sys ℕ, Idle s.mem → s.trace = [] → Ends (startTransfer x.msgs x.bufs) s) ∧
    ∀ s, Reached adversary x s → Safe x s := by
  constructor
  · intro s hidle htrace
    exact ends_start (fun _ => ends_clearRxFifo) hidle (by simp [InBounds, Config.core, htrace])
  · intro s h
    exact h.good.safe

/-- The drained device with its bound left alone. -/
def drainedAdversary (n : ℕ) (_ : Unit) (p : Port) : Option (Port.Res p × ℕ) := some (drained p, n)

theorem drained_refines_adversary : (ofAnswer drainedAdversary).Refines adversary id := by
  intro n p v n' hpost
  obtain ⟨_, h⟩ := hpost
  obtain ⟨rfl, rfl⟩ := Prod.mk.inj (Option.some.inj h)
  cases p with
  | getreg8 reg =>
    cases reg with
    | sr => exact fun hne => absurd hne (by decide)
    | _ => rfl
  | _ => rfl

/-- One write of twenty bytes, more than the FIFO holds. -/
def twentyBytes : Transfer where
  msgs := [{ addr := 0x50, flags := 0, len := 20 }]
  bufs := fun _ p => BitVec.ofNat 8 p
  pos := by decide
  lt := by decide

/-- On the drained device the first run of the thread sends the rest of the message. -/
theorem transfer_safe_twentyBytes :
    Ends (startTransfer twentyBytes.msgs twentyBytes.bufs) ⟨probed, [], 0⟩ ∧
    ∃ s, Reached adversary twentyBytes s ∧ s.mem.txPos = 20 ∧ s.mem.txMsg = some 0 ∧
      Safe twentyBytes s := by
  have hdevice := onDevice_refines (D := XiicI2c) (E := Event) drainedAdversary fun _ _ => ()
  have href := withMemory_refines (D := XiicI2c) (E := Event) drained_refines_adversary
  have hidle : Idle probed := ⟨rfl, rfl, rfl⟩
  have hrun : (run (onDevice drainedAdversary fun _ _ => ()) 30 (do
      startTransfer twentyBytes.msgs twentyBytes.bufs
      xiicProcess) ⟨probed, [], 0⟩).map (fun r => (r.2.mem.txPos, r.2.mem.txMsg)) =
      some (20, some 0) := by
    decide +kernel
  obtain ⟨_, t, hexec, hend⟩ := exec_of_run (fun t : Sys ℕ => (t.mem.txPos, t.mem.txMsg)) hrun
  obtain ⟨_, u, hstart, hprocess⟩ := (exec_bind _ _ _ _ _).mp hexec
  have hreach : Reached adversary twentyBytes t :=
    .process (.start hidle rfl (href.exec _ (hdevice.exec _ hstart)))
      (href.exec _ (hdevice.exec _ hprocess))
  obtain ⟨hpos, hmsg⟩ := Prod.mk.inj hend
  have hsafe := transfer_safe twentyBytes
  exact ⟨hsafe.1 _ hidle rfl, t, hreach, hpos, hmsg, hsafe.2 t hreach⟩

end Runs

end PynqPrio.Iic
