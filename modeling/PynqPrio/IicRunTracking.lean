import PynqPrio.IicTracking

/-!
# Tracking whole runs

The interrupt thread, the start of a transfer and the timeout keep the tracking invariant,
with every atomic step guarded, as long as no message is started while a read is
outstanding.
-/
namespace PynqPrio.Iic
open Programs Programs.Driver Programs.Prog

section Judgement

variable {α γ : Type} {x : Transfer} {s : Sys Unit}

/-- The judgement up to the first message that is started over an outstanding read. -/
def Keeps (x : Transfer) (p : Xiic α) (Q : α → Sys Unit → Prop) (s : Sys Unit) : Prop :=
  Meets anyDevice (fun u v => ReadsDone v.trace → StepOk x u v) p
    (fun a t => ReadsDone t.trace → Q a t) s

theorem keeps_of_meets {p : Xiic α} {Q : α → Sys Unit → Prop}
    (h : Meets anyDevice (StepOk x) p Q s) : Keeps x p Q s :=
  h.mono (fun _ _ hG _ => hG) fun _ _ hQ _ => hQ

theorem keeps_of_overlap {p : Xiic α} {Q : α → Sys Unit → Prop} (h : ¬ReadsDone s.trace) :
    Keeps x p Q s :=
  meets_of_not_trace readsDone_mono p h

theorem keeps_bind {p : Xiic α} {f : α → Xiic γ} {Q : α → Sys Unit → Prop}
    {Q' : γ → Sys Unit → Prop} (hp : Keeps x p Q s)
    (hf : ∀ a t, Q a t → Keeps x (f a) Q' t) : Keeps x (p >>= f) Q' s := by
  refine (meets_bind p f).mpr (hp.imp ?_)
  intro a t ht
  by_cases hdone : ReadsDone t.trace
  · exact hf a t (ht hdone)
  · exact keeps_of_overlap hdone

end Judgement

section Process

variable {x : Transfer} {s : Sys Unit} {i : ℕ} {m : I2cMsg}

theorem startXferUnlocked_tracks (hat : At x s.mem i m) (hsent : SentPrefix x s)
    (hentering : s.mem.rxMsg = none → Entering x s i m) :
    Keeps x xiicStartXferUnlocked (fun _ t => ∃ i m, Tracks x t i m) s := by
  by_cases hrx : s.mem.rxMsg = none
  · refine keeps_of_meets ?_
    have hstart := hentering hrx
    simp only [xiicStartXferUnlocked, meets_bind, meets_txFifoSpace, meets_any_get, hat.txMsg,
      meets_any_note, meets_any_modify]
    intro v
    refine ⟨stepOk_silent trivial hsent, fun _ => stepOk_none hrx (hsent.noted trivial), ?_⟩
    refine meets_iterate (fun st t => LoopHead x st.1 st.2 t) ?_ fun st t ht =>
      (startXferBody_tracks ht).imp ?_
    · refine ⟨⟨i, m, (hstart.silent (e := .startXfer i s.mem.rxMsg _) trivial).withMem ?_ rfl, hrx, rfl, rfl, rfl⟩,
        fun hs => ?_⟩
      · exact ⟨hat.msgs, hat.txMsg, hat.msg, hat.nmsgs, hat.rx⟩
      · exact (startsReady_append.mp hs).2.2
    · intro r t ht
      cases r with
      | inl st => exact ht
      | inr returned =>
        obtain ⟨i, m, ht⟩ := ht
        simp only [meets_ite, meets_bind, meets_pure, meets_any_get, meets_irqClrEn]
        refine ⟨fun _ => ⟨fun _ => ⟨fun _ => ⟨i, m, ht⟩, fun _ => ⟨i, m, ht⟩⟩, fun _ => ?_⟩,
          fun _ => ⟨i, m, ht⟩⟩
        refine (meets_txSpace ht.live.txMsg ht.live.toAt.get).mpr
          ⟨stepOk_silent trivial ht.sent.toPrefix, fun _ => ⟨i, m, ht.silent trivial⟩,
            fun _ => ⟨i, m, ht.silent trivial⟩⟩
  · -- the entry is recorded with the outstanding read
    have hnot : ∀ space, ¬ReadsDone (s.noted (.startXfer i s.mem.rxMsg space)).trace :=
      fun space hs => hrx (readsDone_append.mp hs).2
    rw [xiicStartXferUnlocked, Keeps, meets_bind, meets_txFifoSpace]
    intro v
    rw [meets_bind, meets_any_get]
    simp only [hat.txMsg]
    refine (meets_bind _ _).mpr ((meets_any_note _).mpr ⟨fun hs => absurd hs (hnot _), ?_⟩)
    exact keeps_of_overlap (hnot _)

theorem wakeup_tracks (hsent : SentPrefix x s) (hreads : ∀ j, ∃ n, storesOf j s.trace = upTo n)
    (code : XilinxI2cState)
    (hdone : code = .done → x.Starts → StartsReady s.trace → Completed x s.trace) :
    Meets anyDevice (StepOk x) (xiicWakeup code) (fun _ t => Ended x t) s := by
  simp only [xiicWakeup, meets_bind, meets_any_modify, meets_any_note]
  refine ⟨fun _ => ⟨fun _ _ _ _ _ => .inr rfl, fun j pos byte ht =>
    absurd ht (trace_ne_store s _ j pos byte), hsent⟩, stepOk_silent trivial hsent,
    ⟨rfl, rfl, rfl⟩, hsent.noted trivial, ?_, ?_⟩
  · intro j
    obtain ⟨n, hn⟩ := hreads j
    exact ⟨n, (storesOf_silent (e := .wakeup code) trivial j).trans hn⟩
  · intro hcode hx hs
    have hcomplete := hdone hcode hx (startsReady_append.mp hs).1
    refine ⟨(dtrWords_silent (e := .wakeup code) trivial).trans hcomplete.words, ?_⟩
    intro j r hr hread
    exact (storesOf_silent (e := .wakeup code) trivial j).trans (hcomplete.filled j r hr hread)

theorem Tracked.silent (h : Tracked x s) {e : Event} (he : e.Silent) : Tracked x (s.noted e) := by
  rcases h with h | ⟨i, m, h⟩
  · refine .inl ⟨h.idle, h.sent.noted he, ?_, fun hdone hx hs => ?_⟩
    · intro j
      rw [Config.noted_trace, storesOf_silent he]
      exact h.inOrder j
    · have hcomplete := h.done hdone hx (startsReady_append.mp hs).1
      refine ⟨(dtrWords_silent he).trans hcomplete.words, fun j r hr hread => ?_⟩
      exact (storesOf_silent he j).trans (hcomplete.filled j r hr hread)
  · exact .inr ⟨i, m, h.silent he⟩

theorem processError_tracks (h : Tracked x s) (pend : BitVec 32) :
    Meets anyDevice (StepOk x) (processError pend) (fun _ t => Tracked x t) s := by
  have hreinit : Tracked x (s.noted .reinit) := h.silent trivial
  have hwakeup : Meets anyDevice (StepOk x) (xiicWakeup .error) (fun _ t => Ended x t)
      (s.noted .reinit) :=
    wakeup_tracks hreinit.sentPrefix hreinit.inOrder .error (by simp)
  simp only [processError, meets_bind, meets_ite, meets_pure, meets_any_get]
  refine ⟨fun _ => meets_reinit (stepOk_silent trivial h.sentPrefix)
    ⟨fun _ => hwakeup.imp ?_, fun _ => ⟨fun _ => hwakeup.imp ?_, fun _ => hreinit⟩⟩, fun _ => h⟩
  · intro _ t ht
    simp [ht.idle.txMsg, show Tracked x t from .inl ht]
  · intro _ t ht
    exact .inl ht

/-- Clearing `rx_msg` once the buffer is full. -/
theorem Tracks.finishRx (h : Tracks x s i m) (hrx : s.mem.rxMsg = some i)
    (hfull : s.mem.rxPos = m.len.toNat) :
    Tracks x (s.withMem { s.mem with rxMsg := none }) i m := by
  refine ⟨h.live.clearRx, h.bufs, h.sent, h.started, h.reads.same (sameReads_withMem _),
    fun j hj => absurd hj (by simp), fun _ _ _ => ?_⟩
  have hstores := (h.reading i hrx).2
  rw [hfull, Int.toNat_natCast] at hstores
  exact hstores

theorem processRx_tracks (h : Tracked x s) (isr pend clr : BitVec 32) :
    Keeps x (processRx isr pend clr) (fun _ t => Tracked x t) s := by
  rcases h with hended | ⟨i, m, h⟩
  · refine keeps_of_meets ((processRx_idle hended.idle isr pend clr).imp ?_)
    rintro _ _ rfl
    exact .inl hended
  have htracked : Tracked x s := .inr ⟨i, m, h⟩
  simp only [Keeps, processRx, nextMsg, meets_bind, meets_ite, meets_pure, meets_any_get,
    meets_any_modify]
  refine ⟨fun _ _ => htracked, fun _ => ⟨fun _ => meets_clearRxFifo fun _ => htracked,
    fun hrx => ?_⟩⟩
  obtain ⟨j, hj⟩ := Option.ne_none_iff_exists'.mp (by simpa using hrx)
  obtain rfl : j = i := (h.reading j hj).1
  refine (readRx_tracks h hj).mono (fun _ _ hG _ => hG) ?_
  intro _ t hpost
  obtain ⟨ht, htrx⟩ := hpost
  have hle := (ht.live.rxPos j m htrx ht.live.msg).2
  have ht' : Tracks x (t.noted (.rxSpace m.len.toNat t.mem.rxPos)) j m := ht.silent trivial
  refine (meets_rxSpace htrx ht.live.toAt.get).mpr ⟨fun _ => stepOk_silent trivial
    ht.sent.toPrefix, fun _ _ => .inr ⟨j, m, ht'⟩, fun hspace => ?_⟩
  have hfull : t.mem.rxPos = m.len.toNat := by
    have := not_not.mp hspace
    omega
  have hfinish := ht'.finishRx htrx hfull
  refine ⟨fun _ _ => ⟨?_, ?_, ht'.sent.toPrefix⟩, fun hn => ?_, fun _ _ => .inr ⟨j, m, hfinish⟩⟩
  · -- nothing of the read is missing any more
    intro j' r hj' hr hlt
    obtain rfl : j = j' := Option.some.inj (htrx.symm.trans hj')
    obtain rfl : m = r := Option.some.inj (ht.live.msg.symm.trans hr)
    exact absurd hlt (by simp only [Config.noted_mem]; omega)
  · exact fun j pos byte htrace => absurd htrace (trace_ne_store _ _ j pos byte)
  · obtain ⟨m', hnext⟩ := hfinish.next rfl (ht'.started (ht.isRead htrx)) hn
    refine ⟨fun _ _ => stepOk_none rfl hfinish.sent.toPrefix, ?_⟩
    refine Meets.imp (startXferUnlocked_tracks hnext.cursor hnext.sent.toPrefix fun _ => hnext) ?_
    intro _ u hu hs
    exact .inr (hu hs)

theorem processBnb_tracks (h : Tracked x s) (out : Bool) (pend clr : BitVec 32) :
    Meets anyDevice (StepOk x) (processBnb out pend clr) (fun _ t => Tracked x t) s := by
  rcases h with hended | ⟨i, m, h⟩
  · refine (processBnb_idle hended.idle out pend clr).imp ?_
    rintro _ _ rfl
    exact .inl hended
  have htracked : Tracked x s := .inr ⟨i, m, h⟩
  simp only [processBnb, meets_bind, meets_ite, meets_pure, meets_any_get, meets_irqDis]
  refine ⟨fun _ => htracked, fun _ => ⟨fun _ => htracked, fun _ => ⟨fun hlast => ?_, fun _ => ?_⟩⟩⟩
  · refine (meets_txSpace h.live.txMsg h.live.toAt.get).mpr
      ⟨stepOk_silent trivial h.sent.toPrefix, ?_⟩
    have ht := h.silent (e := .txSpace m.len.toNat s.mem.txPos) trivial
    refine (wakeup_tracks ht.sent.toPrefix ht.reads.inOrder _ ?_).imp fun _ _ hu => .inl hu
    intro hcode hx hs
    have hspace : u32 ((m.len.toNat : ℤ) - s.mem.txPos) = 0 := by
      by_contra hne
      rw [if_neg hne] at hcode
      exact absurd hcode (by simp)
    rw [u32_sub (len_lt m) h.live.txPos] at hspace
    have hle := h.live.txPos
    refine ht.completed hlast.1 (Option.isNone_iff_eq_none.mp hlast.2) ?_ hx hs
    show s.mem.txPos = m.len.toNat
    omega
  · refine (wakeup_tracks h.sent.toPrefix h.reads.inOrder _ ?_).imp fun _ _ hu => .inl hu
    intro hcode
    exact absurd hcode (by simp)

theorem processTxDone_tracks (h : Tracks x s i m) :
    Keeps x processTxDone (fun _ t => Tracked x t) s := by
  have ht := h.silent (e := .txSpace m.len.toNat s.mem.txPos) trivial
  have htracked : Tracked x (s.noted (.txSpace m.len.toNat s.mem.txPos)) := .inr ⟨i, m, ht⟩
  simp only [Keeps, processTxDone, nextMsg, meets_bind, meets_ite, meets_pure, meets_any_get,
    meets_txFifoSpace, meets_irqDis, meets_any_modify]
  refine (meets_txSpace h.live.txMsg h.live.toAt.get).mpr
    ⟨fun _ => stepOk_silent trivial h.sent.toPrefix, fun hspace v => ?_, fun _ _ => htracked⟩
  refine ⟨fun _ => ⟨fun hn => ?_, fun _ _ => htracked⟩,
    fun _ => ⟨fun _ _ => htracked, fun _ _ => htracked⟩⟩
  have hlen : s.mem.txPos = m.len.toNat := by
    rw [u32_sub (len_lt m) h.live.txPos] at hspace
    have hle := h.live.txPos
    omega
  obtain ⟨m', hat⟩ := ht.live.toAt.next hn
  refine ⟨fun _ _ => stepOk_withMem rfl le_rfl ht.sent.toPrefix, ?_⟩
  refine Meets.imp (startXferUnlocked_tracks (i := i + 1) (m := m') hat ht.sent.toPrefix ?_) ?_
  · intro hrx
    obtain ⟨m'', hnext⟩ := ht.next hrx (fun _ => hlen) hn
    obtain rfl : m'' = m' := Option.some.inj (hnext.cursor.msg.symm.trans hat.msg)
    exact hnext
  · intro _ u hu hs
    exact .inr (hu hs)

theorem processTx_tracks (h : Tracked x s) (out : Bool) (pend clr : BitVec 32) :
    Keeps x (processTx out pend clr) (fun _ t => Tracked x t) s := by
  rcases h with hended | ⟨i, m, h⟩
  · refine keeps_of_meets ((processTx_idle hended.idle out pend clr).imp ?_)
    rintro _ _ rfl
    exact .inl hended
  have htracked : Tracked x s := .inr ⟨i, m, h⟩
  simp only [Keeps, processTx, meets_bind, meets_ite, meets_pure, meets_any_get]
  refine ⟨fun _ _ => htracked, fun _ => ⟨fun _ _ => htracked, fun _ => ?_⟩⟩
  refine (fill_sent h.live h.bufs h.sent h.started).mono (fun _ _ hG _ => hG) ?_
  intro _ t hpost
  obtain ⟨hst, p, hle, hp, hmem, hsent⟩ := hpost
  exact processTxDone_tracks (h.moveTx hp hmem hst hle hsent)

/-- A run of the interrupt thread keeps the tracking invariant. -/
theorem process_tracks (h : Tracked x s) : Keeps x xiicProcess (fun _ t => Tracked x t) s := by
  rw [xiicProcess, Keeps, meets_bind, meets_getreg32]
  intro isr
  rw [meets_bind, meets_getreg32]
  intro ier
  refine (meets_bind _ _).mpr ((meets_any_note _).mpr
    ⟨fun _ => stepOk_silent trivial h.sentPrefix, ?_⟩)
  have h' : Tracked x (s.noted (.pend (isr &&& ier))) := h.silent trivial
  refine keeps_bind (keeps_of_meets (processError_tracks h' _)) fun _ t ht => ?_
  refine keeps_bind (processRx_tracks ht isr _ 0) fun r u hu => ?_
  refine keeps_bind (keeps_of_meets (processBnb_tracks hu r.2 _ r.1)) fun r' v hv => ?_
  refine keeps_bind (processTx_tracks hv r'.2 _ r'.1) fun clr w hw => ?_
  exact keeps_of_meets ((meets_setreg32 _ _).mpr hw)

/-- The start of a transfer establishes it. -/
theorem start_tracks (h : Idle s.mem) (htrace : s.trace = []) :
    Keeps x (startTransfer x.msgs x.bufs) (fun _ t => Tracked x t) s := by
  have hpos := x.pos
  have hprefix : SentPrefix x s := by
    intro _ _
    rw [htrace]
    exact List.nil_prefix
  have hentering : Entering x (s.withMem (assigned x s.mem)) 0 x.msgs[0] := by
    refine ⟨⟨rfl, rfl, List.getElem?_eq_getElem hpos, Nat.zero_add _, ?_⟩, fun _ _ _ _ => rfl,
      fun _ _ => ?_, ⟨fun j => ⟨0, ?_⟩, fun j _ => ?_, fun _ j r hj => absurd hj (by simp)⟩, ?_⟩
    · simp [assigned, h.rxMsg]
    all_goals simp [htrace, dtrWords, storesOf, upTo, Transfer.wordsBefore]
  have hentering' := hentering.silent (e := .reinit) trivial
  simp only [Keeps, startTransfer, assignTransfer, xiicStartXfer, meets_bind, meets_any_modify]
  refine ⟨fun _ _ => stepOk_none h.rxMsg hprefix, meets_reinit (fun _ => stepOk_silent trivial
    hprefix) ?_⟩
  refine Meets.imp (startXferUnlocked_tracks hentering'.cursor hentering'.sent.toPrefix
    fun _ => hentering') ?_
  intro _ t ht hs
  exact .inr (ht hs)

theorem timeout_tracks (h : Tracked x s) :
    Meets anyDevice (StepOk x) timeoutCleanup (fun _ t => Tracked x t) s := by
  rw [timeoutCleanup, meets_any_modify]
  refine ⟨fun _ => ⟨fun _ _ _ _ _ => .inr rfl, fun j pos byte ht =>
    absurd ht (trace_ne_store s _ j pos byte), h.sentPrefix⟩,
    .inl ⟨⟨rfl, rfl, rfl⟩, h.sentPrefix, h.inOrder, fun hdone => ?_⟩⟩
  rcases h with hended | ⟨i, m, h⟩
  · exact hended.done hdone
  · exact absurd (h.live.state.symm.trans hdone) (by simp)

end Process

section Runs

variable {δ : Type} {dev : Machine Port Port.Res δ} {x : Transfer} {s u v : Sys δ}

/-- The atomic steps of a transfer on a device. -/
inductive StepOf (dev : Machine Port Port.Res δ) (x : Transfer) : Sys δ → Sys δ → Prop where
  | start {s u v : Sys δ} (idle : Idle s.mem) (trace : s.trace = [])
      (step : Steps (withMemory dev) (startTransfer x.msgs x.bufs) s u v) : StepOf dev x u v
  | process {s u v : Sys δ} (h : Reached dev x s)
      (step : Steps (withMemory dev) xiicProcess s u v) : StepOf dev x u v
  | timeout {s u v : Sys δ} (h : Reached dev x s)
      (step : Steps (withMemory dev) timeoutCleanup s u v) : StepOf dev x u v

/-- Every state of a transfer in which no read was overtaken is tracked. -/
theorem Reached.tracked (h : Reached dev x s) (hs : ReadsDone s.trace) : Tracked x s.core := by
  induction h with
  | start idle trace run => exact exec_of_meets (start_tracks idle trace) run hs
  | process h run ih =>
    have htracked := ih (readsDone_mono _ _ (exec_trace _ run) hs)
    exact exec_of_meets (process_tracks htracked) run hs
  | timeout h run ih =>
    have htracked := ih (readsDone_mono _ _ (exec_trace _ run) hs)
    exact exec_of_meets (timeout_tracks htracked) run

/-- So is every atomic step that changes more than the device. -/
theorem StepOf.ok (h : StepOf dev x u v) (hne : u.core ≠ v.core) (hv : ReadsDone v.trace) :
    StepOk x u.core v.core := by
  have href := withMemory_refines_anyDevice (D := XiicI2c) (E := Event) dev
  cases h with
  | start idle trace step =>
    exact (href.meets (s := _) (start_tracks idle trace)).1 u v step (fun h => hne (h ▸ rfl)) hne hv
  | process h step =>
    have hpre := steps_trace _ step
    have htracked := h.tracked (readsDone_mono _ _ (hpre.1.trans hpre.2) hv)
    exact (href.meets (process_tracks htracked)).1 u v step (fun h => hne (h ▸ rfl)) hne hv
  | timeout h step =>
    have hpre := steps_trace _ step
    have htracked := h.tracked (readsDone_mono _ _ (hpre.1.trans hpre.2) hv)
    exact (href.meets (timeout_tracks htracked)).1 u v step (fun h => hne (h ▸ rfl)) hne

end Runs

end PynqPrio.Iic
