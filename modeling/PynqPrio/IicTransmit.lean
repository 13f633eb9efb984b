import PynqPrio.IicRunTracking

/-!
# Transmit encoding

The device is reduced to the occupancy of its TX FIFO, which goes down at any time and up
only by the words written; everything else it reports is arbitrary. For write messages
every message is then started with room for two words, so the words written are a prefix
of the reference encoding at every point, and all of it once the cursor is at the end.
-/
namespace PynqPrio.Iic
open Programs Programs.Driver Programs.Prog

/-- The occupancy of the TX FIFO. `TFO` reads one less than the occupancy, and the reset
of the core empties the FIFO. -/
def txFifo : Machine Port Port.Res (Fin 17)
  | n, .getreg8 .tfo, v, n' => n' ≤ n ∧ v.toNat = n'.val - 1
  | n, .setreg16 .dtr _, _, n' => n'.val ≤ n.val + 1
  | _, .setreg32 .resetr _, _, n' => n' = 0
  | n, _, _, n' => n' ≤ n

section Entries

/-! Only `__xiic_start_xfer` itself records that a message is started. -/

/-- The program does not start a message. -/
abbrev EmitsReady {α : Type} (p : Xiic α) : Prop := Emits Event.Ready p fun _ => True

variable {K : Unit → Prop}

@[simp] theorem emits_getreg8 (reg : Reg) {K : BitVec 8 → Prop} :
    Emits Event.Ready (xiicGetreg8 reg) K ↔ ∀ v, K v := emits_port (P := Port) _

@[simp] theorem emits_getreg32 (reg : Reg) {K : BitVec 32 → Prop} :
    Emits Event.Ready (xiicGetreg32 reg) K ↔ ∀ v, K v := emits_port (P := Port) _

@[simp] theorem emits_setreg8 (reg : Reg) (v : BitVec 8) :
    Emits Event.Ready (xiicSetreg8 reg v) K ↔ K () :=
  (emits_port (P := Port) _).trans ⟨fun h => h (), fun h _ => h⟩

@[simp] theorem emits_setreg32 (reg : Reg) (v : BitVec 32) :
    Emits Event.Ready (xiicSetreg32 reg v) K ↔ K () :=
  (emits_port (P := Port) _).trans ⟨fun h => h (), fun h _ => h⟩

@[simp] theorem emits_setreg16 (reg : Reg) (v : BitVec 16) :
    Emits Event.Ready (xiicSetreg16 reg v) K ↔ K () := by
  rw [xiicSetreg16, emits_bind]
  refine (emits_port (P := Port) _).trans ⟨fun h => ((emits_note _).mp (h ())).2, fun h _ => ?_⟩
  exact (emits_note _).mpr ⟨trivial, h⟩

@[simp] theorem emits_irqClrEn (mask : BitVec 32) :
    Emits Event.Ready (xiicIrqClrEn mask) K ↔ K () := by
  simp [xiicIrqClrEn, xiicIrqClr, xiicIrqEn]

theorem emits_deref (p : Option ℕ) {K : I2cMsg → Prop} (h : ∀ m, K m) :
    Emits Event.Ready (deref p) K := by
  refine (emits_bind _ _).mpr (emits_get.mpr fun d => ?_)
  split
  · exact h _
  · exact (emits_bind _ _).mpr ((emits_note _).mpr ⟨trivial, h _⟩)

theorem emits_txSpace {K : ℕ → Prop} (h : ∀ n, K n) : Emits Event.Ready xiicTxSpace K := by
  refine (emits_bind _ _).mpr (emits_get.mpr fun d => (emits_bind _ _).mpr (emits_deref _ fun m => ?_))
  exact (emits_bind _ _).mpr ((emits_note _).mpr ⟨trivial, h _⟩)

theorem emits_clearRxFifo {K : Unit → Prop} (h : ∀ u, K u) : Emits Event.Ready xiicClearRxFifo K := by
  refine (emits_iterate _).mpr ⟨fun _ => ?_, h⟩
  simp

theorem emits_reinit (h : K ()) : Emits Event.Ready xiicReinit K := by
  simp only [xiicReinit, emits_bind, emits_note, emits_setreg32, emits_setreg8]
  exact ⟨trivial, emits_clearRxFifo fun _ => (emits_irqClrEn _).mpr h⟩

theorem emits_fillTxFifo (h : ∀ u, K u) : Emits Event.Ready xiicFillTxFifo K := by
  have hload : ∀ K : BitVec 8 → Prop, (∀ v, K v) → Emits Event.Ready loadTxByte K := by
    intro K hK
    refine (emits_bind _ _).mpr (emits_get.mpr fun d => ?_)
    split <;> simp [Event.Ready, hK]
  simp only [xiicFillTxFifo, fillTxWord, xiicTxFifoSpace, emits_bind, emits_getreg8, emits_pure]
  refine fun _ => emits_txSpace fun space => (emits_iterate _).mpr ⟨fun len => ?_, h⟩
  refine (emits_ite _).mpr ⟨fun _ => trivial, fun _ => ?_⟩
  simp only [emits_bind]
  refine hload _ fun byte => emits_txSpace fun space => ?_
  simp

theorem emits_startRecv (h : K ()) : Emits Event.Ready xiicStartRecv K := by
  simp only [xiicStartRecv, emits_bind, emits_modify, emits_get]
  refine fun _ d => emits_deref _ fun m => ?_
  simp [h]

theorem emits_startSend (h : K ()) : Emits Event.Ready xiicStartSend K := by
  have hfill : Emits Event.Ready (do
      xiicFillTxFifo
      xiicIrqClrEn (intrTxEmptyMask ||| intrTxErrorMask ||| intrBnbMask)) K :=
    (emits_bind _ _).mpr (emits_fillTxFifo fun _ => (emits_irqClrEn _).mpr h)
  simp only [xiicStartSend, emits_bind, emits_get]
  refine fun d => emits_deref _ fun m => ?_
  simp only [xiicIrqClr, emits_bind, emits_getreg32, emits_setreg32, emits_ite, emits_setreg16]
  exact fun _ => ⟨fun _ => (emits_bind _ _).mp hfill, fun _ => (emits_bind _ _).mp hfill⟩

theorem emits_startXferBody (first : Bool) (space : ℤ) :
    EmitsReady (startXferBody first space) := by
  have hcurrent : EmitsReady startCurrent := by
    simp only [EmitsReady, startCurrent, emits_bind, emits_get]
    refine fun d => emits_deref _ fun m => (emits_ite _).mpr ⟨fun _ => ?_, fun _ => ?_⟩
    · exact (emits_bind _ _).mpr (emits_startRecv trivial)
    · refine (emits_bind _ _).mpr (emits_startSend ((emits_bind _ _).mpr (emits_txSpace fun _ => ?_)))
      simp [xiicTxFifoSpace]
  simp only [EmitsReady, startXferBody, nextMsg, emits_bind, emits_get, emits_ite, emits_modify,
    emits_pure]
  exact fun d => ⟨fun _ => ⟨fun _ _ _ => hcurrent, fun _ => hcurrent⟩, fun _ => trivial⟩

theorem emits_processError (pend : BitVec 32) : EmitsReady (processError pend) := by
  simp only [EmitsReady, processError, emits_bind, emits_ite, emits_pure]
  refine ⟨fun _ => emits_reinit ?_, fun _ => trivial⟩
  simp [xiicWakeup, Event.Ready]

theorem emits_processBnb (out : Bool) (pend clr : BitVec 32) :
    EmitsReady (processBnb out pend clr) := by
  simp only [EmitsReady, processBnb, xiicIrqDis, emits_bind, emits_ite, emits_pure, emits_get,
    emits_getreg32, emits_setreg32]
  have hwakeup : ∀ code, Emits Event.Ready (xiicWakeup code) fun _ => True := by
    simp [xiicWakeup, Event.Ready]
  refine ⟨fun _ => trivial, fun _ _ d => ⟨fun _ => trivial, fun _ => ⟨fun _ => ?_, fun _ => ?_⟩⟩⟩
  · exact emits_txSpace fun _ => hwakeup _
  · exact hwakeup _

end Entries

section Room

variable {x : Transfer} {s : Sys (Fin 17)}

/-- No step starts a message in a bad state. -/
abbrev Roomy (_ v : Sys (Fin 17)) : Prop := StartsReady v.trace

theorem roomy_of_emits {α : Type} {p : Xiic α} (hp : EmitsReady p) (hs : StartsReady s.trace) :
    Meets (withMemory txFifo) Roomy p (fun _ t => StartsReady t.trace) s :=
  meets_of_emits hp hs

/-- Reading the space of the FIFO. -/
theorem roomy_txFifoSpace (hs : StartsReady s.trace) :
    Meets (withMemory txFifo) Roomy xiicTxFifoSpace (fun space t => t.core = s.core ∧
      t.dev ≤ s.dev ∧ space = 16 - ((t.dev.val - 1 : ℕ) : ℤ) - 1) s := by
  rw [xiicTxFifoSpace, meets_bind]
  refine (meets_port (P := Port) (.getreg8 .tfo)).mpr fun v n hn => ⟨fun _ => hs, ?_⟩
  obtain ⟨hle, hv⟩ := hn
  refine (meets_pure _).mpr ⟨rfl, hle, ?_⟩
  rw [hv]
  rfl

/-- With no read outstanding and at most fourteen words in the FIFO, the next message is
started with room for two words. -/
theorem roomy_startXferUnlocked (hs : StartsReady s.trace) (hrx : s.mem.rxMsg = none)
    (hroom : s.dev.val ≤ 14) :
    Meets (withMemory txFifo) Roomy xiicStartXferUnlocked (fun _ t => StartsReady t.trace) s := by
  rw [xiicStartXferUnlocked, meets_bind]
  refine (roomy_txFifoSpace hs).imp ?_
  intro space t hpost
  obtain ⟨hcore, hle, hspace⟩ := hpost
  have hmem := Config.mem_of_core hcore
  have htrace : t.trace = s.trace := congrArg (fun c => c.trace) hcore
  rw [meets_bind, meets_get]
  split
  · exact (meets_pure _).mpr (htrace ▸ hs)
  rename_i i htx
  have hready : StartsReady (t.noted (.startXfer i t.mem.rxMsg space)).trace := by
    refine startsReady_append.mpr ⟨htrace ▸ hs, by rw [hmem]; exact hrx, ?_⟩
    omega
  rw [meets_bind, meets_note]
  refine ⟨hready, roomy_of_emits ?_ hready⟩
  simp only [EmitsReady, emits_bind, emits_modify, emits_iterate]
  refine fun _ => ⟨fun st => emits_startXferBody st.1 st.2, fun returned => ?_⟩
  simp only [emits_ite, emits_bind, emits_get, emits_pure]
  refine ⟨fun _ d => ⟨fun _ => ?_, fun _ => emits_txSpace fun space => ?_⟩, fun _ => trivial⟩
  · simp
  · simp

def Transfer.Writes (x : Transfer) : Prop := ∀ m ∈ x.msgs, ¬m.IsRead

instance (x : Transfer) : Decidable x.Writes :=
  inferInstanceAs (Decidable (∀ m ∈ x.msgs, ¬m.IsRead))

/-- No read is outstanding while a transfer of writes is worked on. -/
theorem Live.rxMsg_none {d : XiicI2c} {i : ℕ} {m : I2cMsg} (hlive : Live x d i m) (hw : x.Writes) :
    d.rxMsg = none := by
  by_contra hne
  obtain ⟨j, hj⟩ := Option.ne_none_iff_exists'.mp hne
  obtain ⟨_, r, hr, hread⟩ := hlive.rx j hj
  exact hw r (List.mem_of_getElem? hr) hread

/-- No read is ever outstanding in a transfer of writes. -/
theorem Good.rxMsg_none {t : Sys Unit} (h : Good x t) (hw : x.Writes) : t.mem.rxMsg = none := by
  obtain ⟨_, hidle | ⟨i, m, hlive⟩⟩ := h
  · exact hidle.rxMsg
  · exact hlive.rxMsg_none hw

theorem roomy_processTxDone (hw : x.Writes) (hs : StartsReady s.trace) {i : ℕ} {m : I2cMsg}
    (hlive : Live x s.mem i m) :
    Meets (withMemory txFifo) Roomy processTxDone (fun _ t => StartsReady t.trace) s := by
  have hrx := hlive.rxMsg_none hw
  have hmem : Meets anyDevice free xiicTxSpace (fun _ t => t.mem = s.mem) s.core :=
    (meets_txSpace hlive.txMsg hlive.toAt.get).mpr ⟨trivial, rfl⟩
  rw [processTxDone, meets_bind]
  refine (meets_with_core (roomy_of_emits (emits_txSpace fun _ => trivial) hs) hmem).imp ?_
  intro space t hpost
  obtain ⟨ht, htmem⟩ := hpost
  replace htmem : t.mem = s.mem := htmem
  refine (meets_ite _ _ _).mpr ⟨fun _ => ?_, fun _ => (meets_pure _).mpr ht⟩
  rw [meets_bind]
  refine (roomy_txFifoSpace ht).imp ?_
  intro fifoSpace u hpost
  obtain ⟨hcore, _, hspace⟩ := hpost
  have humem : u.mem = s.mem := (Config.mem_of_core hcore).trans htmem
  have hu : StartsReady u.trace := (show u.trace = t.trace from congrArg (fun c => c.trace) hcore) ▸ ht
  have hdis : Meets (withMemory txFifo) Roomy (xiicIrqDis intrTxHalfMask)
      (fun _ t => StartsReady t.trace) u :=
    roomy_of_emits (by simp [EmitsReady, xiicIrqDis]) hu
  rw [meets_bind, meets_get]
  refine (meets_ite _ _ _).mpr ⟨fun hroom => (meets_ite _ _ _).mpr ⟨fun hn => ?_, fun _ => hdis⟩,
    fun _ => (meets_ite _ _ _).mpr ⟨fun _ => hdis, fun _ => (meets_pure _).mpr hu⟩⟩
  rw [nextMsg, meets_bind, meets_modify]
  refine ⟨fun _ => hu, roomy_startXferUnlocked hu ?_ ?_⟩
  · rw [Config.withMem_mem, humem]
    exact hrx
  · show u.dev.val ≤ 14
    omega

theorem roomy_processTx (hw : x.Writes) (hs : StartsReady s.trace) (h : Good x s.core)
    (out : Bool) (pend clr : BitVec 32) :
    Meets (withMemory txFifo) Roomy (processTx out pend clr) (fun _ t => StartsReady t.trace) s := by
  refine (meets_ite _ _ _).mpr ⟨fun _ => (meets_pure _).mpr hs, fun _ => ?_⟩
  refine (meets_bind _ _).mpr (meets_get.mpr ((meets_ite _ _ _).mpr
    ⟨fun _ => (meets_pure _).mpr hs, fun htx => ?_⟩))
  obtain ⟨hin, hidle | ⟨i, m, hlive⟩⟩ := h
  · exact absurd (show s.mem.txMsg = none from hidle.txMsg) (by simpa using htx)
  refine (meets_bind _ _).mpr ((meets_with_core (roomy_of_emits (emits_fillTxFifo fun _ => trivial) hs)
    (fill_cursor hlive hin)).imp ?_)
  intro _ t hpost
  obtain ⟨ht, _, p, _, hp, hmem⟩ := hpost
  replace hmem : t.mem = { s.mem with txPos := p } := hmem
  refine (meets_bind _ _).mpr ((roomy_processTxDone hw ht (i := i) (m := m) ?_).imp ?_)
  · rw [hmem]
    exact hlive.setTxPos hp
  · intro _ u hu
    exact (meets_pure _).mpr hu

theorem roomy_processRx (hs : StartsReady s.trace) (hrx : s.mem.rxMsg = none)
    (isr pend clr : BitVec 32) :
    Meets (withMemory txFifo) Roomy (processRx isr pend clr) (fun _ t => StartsReady t.trace) s := by
  refine (meets_ite _ _ _).mpr ⟨fun _ => (meets_pure _).mpr hs, fun _ => ?_⟩
  refine (meets_bind _ _).mpr (meets_get.mpr ((meets_ite _ _ _).mpr ⟨fun _ => ?_, fun hc => ?_⟩))
  · refine roomy_of_emits ((emits_bind _ _).mpr (emits_clearRxFifo fun _ => trivial)) hs
  · exact absurd (by rw [hrx]; rfl) hc

/-- A run of the interrupt thread starts messages with room only. -/
theorem roomy_process (hw : x.Writes) (hs : StartsReady s.trace) (h : Good x s.core) :
    Meets (withMemory txFifo) Roomy xiicProcess (fun _ t => StartsReady t.trace) s := by
  rw [xiicProcess, meets_bind]
  refine (meets_port (P := Port) (.getreg32 .iisr)).mpr fun (isr : BitVec 32) n _ => ⟨fun _ => hs, ?_⟩
  rw [meets_bind]
  refine (meets_port (P := Port) (.getreg32 .iier)).mpr fun (ier : BitVec 32) n' _ => ⟨fun _ => hs, ?_⟩
  have hs' : StartsReady (((s.withDev n).withDev n').noted (.pend (isr &&& ier))).trace :=
    startsReady_append.mpr ⟨hs, trivial⟩
  rw [meets_bind, meets_note]
  refine ⟨hs', ?_⟩
  have h' : Good x (((s.withDev n).withDev n').noted (.pend (isr &&& ier))).core :=
    Good.noted (s := s.core) h trivial
  refine (meets_bind _ _).mpr ((meets_with_core (roomy_of_emits (emits_processError _) hs')
    (processError_good h' _)).imp ?_)
  intro _ t hpost
  obtain ⟨hts, ht⟩ := hpost
  refine (meets_bind _ _).mpr ((meets_with_core (roomy_processRx hts (ht.rxMsg_none hw) isr _ 0)
    (processRx_good ht isr _ 0)).imp ?_)
  intro r u hpost
  obtain ⟨hus, hu⟩ := hpost
  refine (meets_bind _ _).mpr ((meets_with_core (roomy_of_emits (emits_processBnb r.2 _ r.1) hus)
    (processBnb_good hu r.2 _ r.1)).imp ?_)
  intro r' v hpost
  obtain ⟨hvs, hv⟩ := hpost
  refine (meets_bind _ _).mpr ((roomy_processTx hw hvs hv r'.2 _ r'.1).imp ?_)
  intro clr w hw'
  exact (meets_port (P := Port) (.setreg32 .iisr clr)).mpr fun _ _ _ => ⟨fun _ => hw', hw'⟩

/-- The FIFO is empty, and the memory is that of `s`. -/
def Emptied (s t : Sys (Fin 17)) : Prop := StartsReady t.trace ∧ t.mem = s.mem ∧ t.dev = 0

/-- An access that writes no word keeps the FIFO empty. -/
theorem emptied_port {t : Sys (Fin 17)} (h : Emptied s t) (p : Port)
    (hp : ∀ v n, txFifo 0 p v n → n ≤ 0) :
    Meets (withMemory txFifo) Roomy (port (P := Port) p) (fun _ u => Emptied s u) t := by
  obtain ⟨hs, hmem, hdev⟩ := h
  refine (meets_port (P := Port) p).mpr fun v n hn => ⟨fun _ => hs, hs, hmem, ?_⟩
  rw [hdev] at hn
  exact Fin.le_zero_iff.mp (hp v n hn)

/-- The reset leaves the FIFO empty. -/
theorem emptied_reinit (hs : StartsReady s.trace) :
    Meets (withMemory txFifo) Roomy xiicReinit (fun _ t => Emptied s t) s := by
  have hclear : ∀ t, Emptied s t →
      Meets (withMemory txFifo) Roomy xiicClearRxFifo (fun _ u => Emptied s u) t := by
    intro t ht
    refine meets_iterate (fun _ u => Emptied s u) ht fun _ u hu => ?_
    refine (meets_bind _ _).mpr ((emptied_port hu (.getreg8 .sr) fun _ _ h => h).imp ?_)
    intro sr v hv
    refine (meets_ite _ _ _).mpr ⟨fun _ => (meets_pure _).mpr hv, fun _ => ?_⟩
    refine (meets_bind _ _).mpr ((emptied_port hv (.getreg8 .drr) fun _ _ h => h).imp ?_)
    exact fun _ w hw => (meets_pure _).mpr hw
  rw [xiicReinit, meets_bind, meets_note]
  refine ⟨startsReady_append.mpr ⟨hs, trivial⟩, (meets_bind _ _).mpr ?_⟩
  refine (meets_port (P := Port) (.setreg32 .resetr resetMask)).mpr fun _ n hn => ?_
  have h0 : Emptied s ((s.noted .reinit).withDev n) :=
    ⟨startsReady_append.mpr ⟨hs, trivial⟩, rfl, hn⟩
  refine ⟨fun _ => h0.1, (meets_bind _ _).mpr ((emptied_port h0 (.setreg8 .rfd _)
    fun _ _ h => h).imp fun _ t ht => ?_)⟩
  refine (meets_bind _ _).mpr ((emptied_port ht (.setreg8 .cr _) fun _ _ h => h).imp fun _ t ht => ?_)
  refine (meets_bind _ _).mpr ((emptied_port ht (.setreg8 .cr _) fun _ _ h => h).imp fun _ t ht => ?_)
  refine (meets_bind _ _).mpr ((hclear t ht).imp fun _ t ht => ?_)
  refine (meets_bind _ _).mpr ((emptied_port ht (.setreg32 .dgier _) fun _ _ h => h).imp
    fun _ t ht => ?_)
  -- the two read-modify-write accesses to the interrupt registers
  refine (meets_bind _ _).mpr ((meets_bind _ _).mpr ((emptied_port ht (.getreg32 .iisr)
    fun _ _ h => h).imp fun isr t ht => ?_))
  refine (emptied_port ht (.setreg32 .iisr _) fun _ _ h => h).imp fun _ t ht => ?_
  refine (meets_bind _ _).mpr ((emptied_port ht (.getreg32 .iier) fun _ _ h => h).imp
    fun ier t ht => ?_)
  exact emptied_port ht (.setreg32 .iier _) fun _ _ h => h

theorem roomy_start (h : Idle s.mem) (hs : StartsReady s.trace) :
    Meets (withMemory txFifo) Roomy (startTransfer x.msgs x.bufs)
      (fun _ t => StartsReady t.trace) s := by
  rw [startTransfer, assignTransfer, xiicStartXfer, meets_bind, meets_modify]
  refine ⟨fun _ => hs, (meets_bind _ _).mpr ?_⟩
  have hs' : StartsReady (s.withMem (assigned x s.mem)).trace := hs
  refine (emptied_reinit hs').imp ?_
  intro _ t hpost
  obtain ⟨ht, hmem, hdev⟩ := hpost
  refine roomy_startXferUnlocked ht ?_ ?_
  · rw [hmem]
    exact h.rxMsg
  · rw [hdev]
    decide

end Room

section Encoding

variable {x : Transfer} {s t : Sys (Fin 17)}

theorem startsReady_nil : StartsReady [] := fun _ he => absurd he (by simp)

theorem Reached.startsReady (hw : x.Writes) (h : Reached txFifo x s) : StartsReady s.trace := by
  induction h with
  | start idle trace run => exact (roomy_start idle (trace ▸ startsReady_nil)).2 _ _ run
  | process h run ih => exact (roomy_process hw ih h.good).2 _ _ run
  | timeout h run ih =>
    exact (roomy_of_emits (p := timeoutCleanup) (by simp [EmitsReady, timeoutCleanup]) ih).2 _ _ run

theorem StepOf.startsReady (hw : x.Writes) (h : StepOf txFifo x s t) : StartsReady t.trace := by
  cases h with
  | start idle trace step =>
    have hs := trace ▸ startsReady_nil
    exact (meets_steps (P := fun t => StartsReady t.trace) hs (roomy_start idle hs) step).2
  | process h step =>
    have hs := h.startsReady hw
    exact (meets_steps (P := fun t => StartsReady t.trace) hs (roomy_process hw hs h.good) step).2
  | timeout h step =>
    have hs := h.startsReady hw
    exact (meets_steps (P := fun t => StartsReady t.trace) hs (roomy_of_emits
      (p := timeoutCleanup) (by simp [EmitsReady, timeoutCleanup]) hs) step).2

/-- A step leaves the words a prefix of the encoding if it finds them so. -/
theorem StepOf.sentPrefix (hx : x.Starts) (hw : x.Writes) (h : StepOf txFifo x s t)
    (hs : dtrWords s.trace <+: x.encoding) : dtrWords t.trace <+: x.encoding := by
  by_cases hcore : s.core = t.core
  · have htrace : s.trace = t.trace := congrArg (fun c => c.trace) hcore
    exact htrace ▸ hs
  · have hready := h.startsReady hw
    exact (h.ok hcore hready.readsDone).sent hx hready

/-- The words written are a prefix of the encoding at every point of a transfer of writes,
and all of it when the last message is at its end. -/
theorem dtrWords_encoding (x : Transfer) (hx : x.Starts) (hw : x.Writes) :
    (∀ s t, StepOf txFifo x s t → dtrWords t.trace <+: x.encoding) ∧
    ∀ s i m, Reached txFifo x s → s.mem.txMsg = some i → x.msgs[i]? = some m →
      s.mem.nmsgs = 1 → s.mem.txPos = m.len.toNat → dtrWords s.trace = x.encoding := by
  have hreached : ∀ s, Reached txFifo x s → dtrWords s.trace <+: x.encoding := by
    intro s h
    have hs := h.startsReady hw
    exact (h.tracked hs.readsDone).sentPrefix hx hs
  constructor
  · intro s t h
    cases h with
    | @start r _ _ idle trace step =>
      have h0 : dtrWords r.trace <+: x.encoding := by
        rw [trace]
        exact List.nil_prefix
      exact (steps_invariant (P := fun t => dtrWords t.trace <+: x.encoding) h0
        (fun u v huv => (StepOf.start idle trace huv).sentPrefix hx hw) step).2
    | process h step =>
      exact (steps_invariant (P := fun t => dtrWords t.trace <+: x.encoding) (hreached _ h)
        (fun u v huv => (StepOf.process h huv).sentPrefix hx hw) step).2
    | timeout h step =>
      exact (steps_invariant (P := fun t => dtrWords t.trace <+: x.encoding) (hreached _ h)
        (fun u v huv => (StepOf.timeout h huv).sentPrefix hx hw) step).2
  · intro s i m h htx hm hn hpos
    have hs := h.startsReady hw
    rcases h.tracked hs.readsDone with hended | ⟨j, m', hlive⟩
    · exact absurd ((show s.mem.txMsg = none from hended.idle.txMsg).symm.trans htx) (by simp)
    · obtain rfl : j = i := Option.some.inj (hlive.live.txMsg.symm.trans htx)
      obtain rfl : m' = m := Option.some.inj (hlive.live.msg.symm.trans hm)
      have hrx := (h.good.rxMsg_none hw)
      exact (hlive.completed hn hrx hpos hx hs).words

/-- Twenty bytes, which do not fit into the FIFO, and a message of its address only. -/
def twoWrites : Transfer where
  msgs := [⟨0x50, 0, 20⟩, ⟨0x51, 0, 0⟩]
  bufs := fun _ p => BitVec.ofNat 8 p
  pos := by decide
  lt := by decide

/-- The drained device empties the FIFO before every access. -/
def drainedFifo (_ : Fin 17) (_ : Unit) (p : Port) : Option (Port.Res p × Fin 17) :=
  some (drained p, 0)

theorem drained_refines_txFifo : (ofAnswer drainedFifo).Refines txFifo id := by
  intro n p v n' hpost
  obtain ⟨_, h⟩ := hpost
  obtain ⟨rfl, rfl⟩ := Prod.mk.inj (Option.some.inj h)
  cases p with
  | getreg8 reg =>
    cases reg with
    | tfo => exact ⟨Fin.zero_le n, rfl⟩
    | _ => exact Fin.zero_le n
  | setreg16 reg v =>
    cases reg with
    | dtr => exact Nat.zero_le _
    | _ => exact Fin.zero_le n
  | setreg32 reg v =>
    cases reg with
    | resetr => rfl
    | _ => exact Fin.zero_le n
  | _ => exact Fin.zero_le n

/-- The step writes to the FIFO. -/
def writesWord (s t : Sys (Fin 17)) : Bool := decide (dtrWords s.trace ≠ dtrWords t.trace)

/-- On the drained device two runs of the interrupt thread write the whole encoding. -/
theorem dtrWords_encoding_twoWrites :
    (∃ s t, StepOf txFifo twoWrites s t ∧ dtrWords s.trace ≠ dtrWords t.trace ∧
      dtrWords t.trace <+: twoWrites.encoding) ∧
    ∃ s, Reached txFifo twoWrites s ∧ dtrWords s.trace = twoWrites.encoding := by
  have href := withMemory_refines (D := XiicI2c) (E := Event) drained_refines_txFifo
  have hdevice := onDevice_refines (D := XiicI2c) (E := Event) drainedFifo fun _ _ => ()
  have hidle : Idle probed := ⟨rfl, rfl, rfl⟩
  have hall := dtrWords_encoding twoWrites (by decide) (by decide)
  constructor
  · have hwatch : (watch (onDevice drainedFifo fun _ _ => ()) writesWord 40
        (startTransfer twoWrites.msgs twoWrites.bufs) ⟨probed, [], 0⟩).1 = true := by
      decide +kernel
    obtain ⟨s, t, hsteps, hword⟩ := (watch_sound _ _).2 hwatch
    have hstep : StepOf txFifo twoWrites s t :=
      .start hidle rfl (href.steps _ (hdevice.steps _ hsteps))
    exact ⟨s, t, hstep, of_decide_eq_true hword, hall.1 s t hstep⟩
  · have hrun : (run (onDevice drainedFifo fun _ _ => ()) 40 (do
        startTransfer twoWrites.msgs twoWrites.bufs
        xiicProcess) ⟨probed, [], 0⟩).map (fun r =>
          (r.2.mem.txMsg, r.2.mem.nmsgs, r.2.mem.txPos)) = some (some 1, 1, 0) := by
      decide +kernel
    obtain ⟨_, t, hexec, hend⟩ := exec_of_run
      (fun t : Sys (Fin 17) => (t.mem.txMsg, t.mem.nmsgs, t.mem.txPos)) hrun
    obtain ⟨_, u, hstart, hprocess⟩ := (exec_bind _ _ _ _ _).mp hexec
    have hreach : Reached txFifo twoWrites t :=
      .process (.start hidle rfl (href.exec _ (hdevice.exec _ hstart)))
        (href.exec _ (hdevice.exec _ hprocess))
    obtain ⟨hmsg, hrest⟩ := Prod.mk.inj hend
    obtain ⟨hn, hpos⟩ := Prod.mk.inj hrest
    exact ⟨t, hreach, hall.2 t 1 _ hreach hmsg rfl hn hpos⟩

end Encoding

end PynqPrio.Iic
