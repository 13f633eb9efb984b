import PynqPrio.UartTransmit

/-!
# No stall

`ulite_start_tx` sends one byte and leaves the rest to an interrupt, which the device
latches when its transmitter becomes empty. As long as the serial core starts the
transmitter together with every request, nothing waits for an interrupt that cannot come.
-/
namespace PynqPrio.Uart
open Programs Programs.Driver Programs.Prog

section Stall

/-- `ulite_isr` is not running, in its loop, or past the last iteration. -/
inductive IsrPhase where
  | idle | looping | leaving
  deriving DecidableEq

structure StallState where
  sys : Sys
  isr : IsrPhase

/-- The steps of the system. `append` says whether the serial core calls `start_tx`. -/
inductive StallLabel where
  | append (b : BitVec 8) (starts : Bool)
  | setXChar (b : BitVec 8)
  | stop
  | restart
  | startTx
  | device (a : Activity)
  | takeIrq
  | iteration
  | leave

/-- The system with another memory, in which `ulite_start_tx` then runs. -/
def StartsWith (d : UartMem) (s t : StallState) : Prop :=
  Exec (withMemory uartCore) uliteStartTx (s.sys.withMem d) () t.sys ∧ t.isr = s.isr

/-- The serial core appends while there is room, and only leaves out `start_tx` while the tty
is stopped. Taking the interrupt clears the latch; the line is shared, so that the handler
may also run without it. -/
def StallStep (s : StallState) (label : StallLabel) (t : StallState) : Prop :=
  match label with
  | .append b starts => s.sys.mem.HasRoom ∧
      if starts = true then StartsWith (s.sys.mem.appendByte b) s t
      else s.sys.mem.txStopped = true ∧
        t = { s with sys := s.sys.withMem (s.sys.mem.appendByte b) }
  | .setXChar b => StartsWith (s.sys.mem.withXChar b) s t
  | .stop => t = { s with sys := s.sys.withMem (s.sys.mem.withStopped true) }
  | .restart => StartsWith (s.sys.mem.withStopped false) s t
  | .startTx => StartsWith s.sys.mem s t
  | .device a => t = { s with sys := s.sys.withDev (s.sys.dev.act a) }
  | .takeIrq => s.isr = .idle ∧
      t = ⟨s.sys.withDev { s.sys.dev with latched := false }, .looping⟩
  | .iteration => s.isr = .looping ∧ ∃ busy, Exec (withMemory uartCore) isrIteration s.sys busy t.sys ∧
      t.isr = if busy = true then .looping else .leaving
  | .leave => s.isr = .leaving ∧ t = { s with isr := .idle }

/-- Something is waiting to be sent. -/
def TxPending (s : Sys) : Prop :=
  s.mem.xChar ≠ 0 ∨ (¬uartCircEmpty s.mem.xmit ∧ s.mem.txStopped = false)

/-- The transmitter is sending, or its interrupt is to come. -/
def TxLive (d : UartRegs) : Prop := d.tx ≠ [] ∨ d.latched = true

/-- The interrupt for the received bytes is to come. -/
def RxLive (d : UartRegs) : Prop := d.rx ≠ [] → d.latched = true

structure NoStall (s : Sys) : Prop where
  tx : TxPending s → TxLive s.dev
  rx : RxLive s.dev

structure StallStart (s : StallState) : Prop where
  startup : ∃ s₀ : Sys, s₀.mem.xChar = 0 ∧ uartCircEmpty s₀.mem.xmit ∧
    Exec (withMemory uartCore) uliteStartup s₀ 0 s.sys
  isr : s.isr = .idle

/-- Outside of the loop of the handler nothing stalls. -/
def StallInv (s : StallState) : Prop := s.isr ≠ .looping → NoStall s.sys

variable {s t : StallState} {label : StallLabel} {l : List (StallLabel × StallState)}

/-! What the device does by itself. -/

theorem TxLive.act {d : UartRegs} (h : TxLive d) (a : Activity) : TxLive (d.act a) := by
  cases a with
  | drain =>
    cases h with
    | inl htx =>
      by_cases hrest : d.tx.tail = []
      · right
        simp [UartRegs.act, hrest, htx]
      · exact .inl hrest
    | inr hlatched =>
      right
      simp [UartRegs.act, hlatched]
  | arrive b =>
    simp only [UartRegs.act]
    split
    · exact h
    · exact h.imp_right fun hlatched => by simp [hlatched]
  | overrun => exact h
  | frame => exact h
  | parity => exact h

theorem RxLive.act {d : UartRegs} (h : RxLive d) (a : Activity) : RxLive (d.act a) := by
  intro hrx
  cases a with
  | drain =>
    have hlatched := h hrx
    simp [UartRegs.act, hlatched]
  | arrive b =>
    simp only [UartRegs.act] at hrx ⊢
    split at hrx
    · rename_i hfull
      rw [if_pos hfull]
      exact h hrx
    · rename_i hfull
      rw [if_neg hfull]
      cases hempty : d.rx with
      | nil => simp
      | cons b' rest =>
        have hlatched := h (by simp [hempty])
        simp [hlatched]
  | overrun => exact h hrx
  | frame => exact h hrx
  | parity => exact h hrx

theorem TxLive.acts {d : UartRegs} (h : TxLive d) (l : List Activity) : TxLive (d.acts l) :=
  UartRegs.acts_invariant TxLive (fun _ a h => h.act a) h l

theorem RxLive.acts {d : UartRegs} (h : RxLive d) (l : List Activity) : RxLive (d.acts l) :=
  UartRegs.acts_invariant RxLive (fun _ a h => h.act a) h l

/-- The interrupt is enabled without a reset. -/
theorem RxLive.controlIe {d : UartRegs} (h : RxLive d) : RxLive (d.control controlIe) := by
  intro hrx
  have hlatched : d.latched = true := h hrx
  simp [UartRegs.control, hlatched]

theorem NoStall.act {s : Sys} (h : NoStall s) (a : Activity) :
    NoStall (s.withDev (s.dev.act a)) where
  tx := fun hpending => (h.tx hpending).act a
  rx := h.rx.act a

/-- A byte that has been written is in the FIFO. -/
theorem txLive_send (d : UartRegs) (b : BitVec 8) : TxLive (d.send b) := by
  left
  rw [UartRegs.send]
  split
  · rename_i hfull
    intro hempty
    have htx : d.tx = [] := hempty
    rw [UartRegs.txFull, htx] at hfull
    exact absurd hfull (by decide)
  · exact List.append_ne_nil_of_right_ne_nil _ (List.cons_ne_nil b [])

theorem rxLive_send {d : UartRegs} (h : RxLive d) (b : BitVec 8) : RxLive (d.send b) := by
  rw [UartRegs.send]
  split <;> exact h

/-- A full transmitter is not empty. -/
theorem txLive_of_full {d : UartRegs} (h : d.status &&& statusTxfull ≠ 0) : TxLive d := by
  left
  intro hempty
  apply h
  rw [status_txfull, UartRegs.txFull, hempty]
  rfl

/-- After `ulite_transmit` with a `STATUS` of this state or an earlier one. -/
theorem noStall_of_transmitted {stat : BitVec 32} {u v : Sys} {r : Bool}
    (hfull : stat &&& statusTxfull ≠ 0 → TxLive u.dev) (hrx : RxLive u.dev)
    (h : Transmitted stat u r v) : NoStall v := by
  cases h with
  | full hstat => exact ⟨fun _ => hfull hstat, hrx⟩
  | idle hroom hx hidle =>
    refine ⟨?_, hrx⟩
    rintro (hxChar | ⟨hne, hgo⟩)
    · exact absurd hx hxChar
    · cases hidle with
      | inl hempty => exact absurd hempty hne
      | inr hstopped => exact absurd (hgo.symm.trans hstopped) Bool.false_ne_true
  | xChar l hroom hx hmem hdev =>
    refine ⟨fun _ => ?_, ?_⟩
    · rw [hdev]
      exact (txLive_send _ _).acts l
    · rw [hdev]
      exact (rxLive_send hrx _).acts l
  | byte l hroom hx hne hgo hmem hdev =>
    refine ⟨fun _ => ?_, ?_⟩
    · rw [hdev]
      exact (txLive_send _ _).acts l
    · rw [hdev]
      exact (rxLive_send hrx _).acts l

/-- `ulite_start_tx` leaves nothing waiting, whatever was before. -/
theorem noStall_startTx {u v : Sys} (hrx : RxLive u.dev)
    (h : Exec (withMemory uartCore) uliteStartTx u () v) : NoStall v := by
  obtain ⟨l, r, htransmit⟩ := startTx_of_exec h
  apply noStall_of_transmitted _ _ htransmit
  · intro hfull
    have hlive : TxLive u.dev := txLive_of_full hfull
    exact TxLive.acts (d := u.dev.clearErrors) hlive l
  · have hlive : RxLive u.dev.clearErrors := hrx
    exact hlive.acts l

/-- And so does the last iteration of `ulite_isr`. -/
theorem noStall_iteration {u v : Sys} (h : Exec (withMemory uartCore) isrIteration u false v) :
    NoStall v := by
  obtain ⟨l, r₁, r₂, w, hreceive, htransmit, hbusy⟩ := iteration_of_exec h
  obtain ⟨hr₁, hr₂⟩ : r₁ = false ∧ r₂ = false := by simpa using hbusy.symm
  subst hr₁ hr₂
  have hquiet := (status_quiet u.dev).mp (by simpa using hreceive.busy)
  have hdev : w.dev = u.dev.clearErrors.acts l := by
    cases hreceive.dev with
    | inl hsame => exact hsame
    | inr hpop => exact absurd hpop.1 Bool.false_ne_true
  apply noStall_of_transmitted _ _ htransmit
  · intro hfull
    have hlive : TxLive u.dev := txLive_of_full hfull
    rw [hdev]
    exact TxLive.acts (d := u.dev.clearErrors) hlive l
  · have hlive : RxLive u.dev.clearErrors := fun hrx => absurd hquiet.1 hrx
    rw [hdev]
    exact hlive.acts l

theorem StartsWith.inv {d : UartMem} (h : StartsWith d s t) (hs : StallInv s) : StallInv t := by
  intro hisr
  rw [h.2] at hisr
  exact noStall_startTx (u := s.sys.withMem d) (hs hisr).rx h.1

theorem StallStep.inv (h : StallStep s label t) (hs : StallInv s) : StallInv t := by
  cases label with
  | append b starts =>
    obtain ⟨-, h⟩ := h
    cases starts with
    | true => exact StartsWith.inv h hs
    | false =>
      obtain ⟨hstopped, rfl⟩ := h
      intro hisr
      refine ⟨?_, (hs hisr).rx⟩
      rintro (hx | ⟨-, hgo⟩)
      · exact (hs hisr).tx (.inl hx)
      · exact absurd (hgo.symm.trans hstopped) Bool.false_ne_true
  | setXChar b => exact StartsWith.inv h hs
  | stop =>
    obtain rfl := h
    intro hisr
    refine ⟨?_, (hs hisr).rx⟩
    rintro (hx | ⟨-, hgo⟩)
    · exact (hs hisr).tx (.inl hx)
    · exact absurd hgo.symm Bool.false_ne_true
  | restart => exact StartsWith.inv h hs
  | startTx => exact StartsWith.inv h hs
  | device a =>
    obtain rfl := h
    exact fun hisr => (hs hisr).act a
  | takeIrq =>
    obtain ⟨-, rfl⟩ := h
    exact fun hisr => absurd rfl hisr
  | iteration =>
    obtain ⟨-, busy, hrun, hisr⟩ := h
    intro hleft
    cases busy with
    | true => exact absurd hisr hleft
    | false => exact noStall_iteration hrun
  | leave =>
    obtain ⟨hisr, rfl⟩ := h
    intro _
    apply hs
    rw [hisr]
    exact IsrPhase.noConfusion

/-- `ulite_startup` empties the receiver before it returns. -/
theorem StallStart.inv (h : StallStart s) : StallInv s := by
  obtain ⟨⟨s₀, hx, hempty, hrun⟩, -⟩ := h
  obtain ⟨⟨d, l, l', hdev⟩, hxmit, hxChar⟩ := startup_of_exec hrun
  have hreset : RxLive (d.control (controlRstRx ||| controlRstTx)) := fun hrx => absurd rfl hrx
  have hon := (hreset.acts l).controlIe
  intro _
  constructor
  · rintro (hpending | ⟨hpending, -⟩)
    · exact absurd (hxChar.trans hx) hpending
    · rw [hxmit] at hpending
      exact absurd hempty hpending
  · rw [hdev]
    exact hon.acts l'

/-- Whenever `ulite_isr` is not running, what waits to be sent or to be read has an interrupt
that is to come. -/
theorem no_stall (s : StallState) (h : StallStart s) (l : List (StallLabel × StallState))
    (hrun : Run StallStep s l) (hidle : (finish s l).isr = .idle) : NoStall (finish s l).sys := by
  have hinv := hrun.invariant (fun s label t hs hstep => StallStep.inv hstep hs) h.inv
  apply hinv
  rw [hidle]
  exact IsrPhase.noConfusion

end Stall

section Runs

def opened : StallState :=
  ⟨((run (onDevice UartRegs.answer calm) 1 uliteStartup freshPort).getD (0, freshPort)).2, .idle⟩

def appendedByte : StallState := ⟨started (opened.sys.withMem (opened.sys.mem.appendByte 0x41)), .idle⟩

def drainedByte : StallState := ⟨appendedByte.sys.withDev (appendedByte.sys.dev.act .drain), .idle⟩

theorem stallStart_opened : StallStart opened := by
  have hrun : run (onDevice UartRegs.answer calm) 1 uliteStartup freshPort =
      some (0, opened.sys) := rfl
  refine ⟨⟨freshPort, rfl, rfl, ?_⟩, rfl⟩
  exact (onDevice_refines UartRegs.answer calm).exec _ ((watch_sound _ _).1 _ _ hrun)

/-- The byte has been sent, and the interrupt is latched. -/
theorem no_stall_drained : NoStall drainedByte.sys ∧ drainedByte.sys.dev.latched = true := by
  have hrun : Run StallStep opened [(.append 0x41 true, appendedByte), (.device .drain, drainedByte)] := by
    apply Run.cons
    · exact ⟨by decide, txStep_started rfl, rfl⟩
    apply Run.cons
    · rfl
    exact .nil _
  exact ⟨no_stall opened stallStart_opened _ hrun rfl, by decide⟩

end Runs

end PynqPrio.Uart
