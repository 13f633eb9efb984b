import PynqPrio.IicCore

/-!
# Completion and read isolation

The TX branch of the interrupt thread can start the next message while a read is
outstanding: `xiic_start_recv` counts the read as transmitted and TX_EMPTY stays enabled
after an earlier write. Where it does not, a transfer that ends in `STATE_DONE` is
complete, and an outstanding read is left alone.
-/
namespace PynqPrio.Iic
open Programs Programs.Driver Programs.Prog

section Completion

variable {δ : Type}

/-- If every message was started with no read outstanding and with room for its first two
words, `STATE_DONE` means that all words were written and all read buffers filled. -/
theorem completed_of_done (dev : Machine Port Port.Res δ) (x : Transfer) (hx : x.Starts)
    (s : Sys δ) (h : Reached dev x s) (hs : StartsReady s.trace) (hdone : s.mem.state = .done) :
    Completed x s.trace := by
  rcases h.tracked hs.readsDone with hended | ⟨i, m, hlive⟩
  · exact hended.done hdone hx hs
  · exact absurd (hlive.live.state.symm.trans hdone) (by simp)

/-- What isolates an outstanding read: no step replaces it or takes bytes back before its
last byte is stored or the transfer ends, and every byte is stored at its position. -/
def Isolated (x : Transfer) (s t : Sys δ) : Prop :=
  (∀ j r, s.mem.rxMsg = some j → x.msgs[j]? = some r → s.mem.rxPos < r.len.toNat →
    (t.mem.rxMsg = some j ∧ s.mem.rxPos ≤ t.mem.rxPos) ∨ t.mem.txMsg = none) ∧
  ∀ j pos byte, t.trace = s.trace ++ [.store j pos byte] →
    s.mem.rxMsg = some j ∧ pos = s.mem.rxPos

/-- If no message is started over an outstanding read, every step isolates the read, and
every buffer is filled in order. -/
theorem isolated_of_readsDone (dev : Machine Port Port.Res δ) (x : Transfer) :
    (∀ s t, StepOf dev x s t → ReadsDone t.trace → Isolated x s t) ∧
    ∀ s, Reached dev x s → ReadsDone s.trace → ∀ j, ∃ n, storesOf j s.trace = upTo n := by
  constructor
  · intro s t h ht
    by_cases hcore : s.core = t.core
    · have hmem := Config.mem_of_core hcore
      have htrace : s.trace = t.trace := congrArg (fun c => c.trace) hcore
      refine ⟨fun j r hj _ _ => .inl ⟨hmem ▸ hj, by rw [hmem]⟩, fun j pos byte hstore => ?_⟩
      rw [htrace] at hstore
      exact absurd (congrArg List.length hstore) (by simp)
    · have hok := h.ok hcore ht
      exact ⟨hok.isolated, hok.stored⟩
  · intro s h hs
    exact (h.tracked hs).inOrder

end Completion

section Runs

def writeRead : Transfer where
  msgs := [⟨0x50, 0, 1⟩, ⟨0x50, 1, 1⟩]
  bufs := fun _ _ => 0x11
  pos := by decide
  lt := by decide

/-- The core executes all four words before the thread looks at the interrupts. -/
def atOnce : Schedule := fun c p =>
  match p with
  | .getreg32 .iisr =>
    if c.txFifo.length = 4 then [.drain, .drain, .drain, .drain, .receive 0xA5,
      .raise intrRxFullMask, .raise intrBnbMask] else []
  | _ => []

/-- The write and the read are started together and complete in one run of the thread. -/
theorem completed_writeRead : ∃ s, Reached iicCore writeRead s ∧ Completed writeRead s.trace := by
  have hrun : (runTransfer writeRead probed [atOnce]).map (fun s =>
      decide (StartsReady s.trace ∧ s.mem.state = .done)) = some true := by
    decide +kernel
  obtain ⟨s, hs, hend⟩ := Option.map_eq_some_iff.mp hrun
  have hreach := runTransfer_reached ⟨rfl, rfl, rfl⟩ hs
  obtain ⟨hready, hdone⟩ := of_decide_eq_true hend
  exact ⟨s, hreach, completed_of_done iicCore writeRead (by decide) s hreach hready hdone⟩

def storesByte (s t : Sys IicCore) : Bool :=
  decide (s.mem.rxMsg = some 1 ∧ storesOf 1 s.trace ≠ storesOf 1 t.trace ∧ ReadsDone t.trace)

/-- In the same run the byte is stored by a step that isolates the read. -/
theorem isolated_writeRead :
    (∃ s t, StepOf iicCore writeRead s t ∧ s.mem.rxMsg = some 1 ∧
      storesOf 1 s.trace ≠ storesOf 1 t.trace ∧ Isolated writeRead s t) ∧
    ∃ s, Reached iicCore writeRead s ∧ ∃ n, storesOf 1 s.trace = upTo n := by
  have hall := isolated_of_readsDone iicCore writeRead
  constructor
  · have hrun : (runTransfer writeRead probed []).map (fun s =>
        (watch (onDevice IicCore.answer atOnce) storesByte 40 xiicProcess s).1) = some true := by
      decide +kernel
    obtain ⟨r, hr, hwatch⟩ := Option.map_eq_some_iff.mp hrun
    obtain ⟨s, t, hsteps, hstores⟩ := (watch_sound xiicProcess r).2 hwatch
    have hstep : StepOf iicCore writeRead s t :=
      .process (runTransfer_reached ⟨rfl, rfl, rfl⟩ hr)
        ((onDevice_refines IicCore.answer atOnce).steps _ hsteps)
    obtain ⟨hrx, hne, hdone⟩ := of_decide_eq_true hstores
    exact ⟨s, t, hstep, hrx, hne, hall.1 s t hstep hdone⟩
  · have hrun : (runTransfer writeRead probed [atOnce]).map (fun s =>
        decide (ReadsDone s.trace)) = some true := by
      decide +kernel
    obtain ⟨s, hs, hdone⟩ := Option.map_eq_some_iff.mp hrun
    have hreach := runTransfer_reached ⟨rfl, rfl, rfl⟩ hs
    exact ⟨s, hreach, hall.2 s hreach (of_decide_eq_true hdone) 1⟩

def writeReadRead : Transfer where
  msgs := [⟨0x50, 0, 1⟩, ⟨0x50, 1, 1⟩, ⟨0x50, 1, 1⟩]
  bufs := fun _ _ => 0x11
  pos := by decide
  lt := by decide

/-- The core has emptied the TX FIFO, but the byte of the first read has not arrived. -/
def emptied : Schedule := fun c p =>
  match p with
  | .getreg32 .iisr =>
    if c.txFifo.length = 4 then [.drain, .drain, .drain, .drain, .raise intrTxEmptyMask] else []
  | _ => []

def arrived : Schedule := fun _ p =>
  match p with
  | .getreg32 .iisr => [.receive 0xA5, .raise intrRxFullMask]
  | _ => []

/-- The core executes the second read and the STOP. -/
def finished : Schedule := fun _ p =>
  match p with
  | .getreg32 .iisr => [.drain, .drain, .receive 0x5A, .raise intrRxFullMask, .raise intrBnbMask]
  | _ => []

/-- The transfer ends in `STATE_DONE` with no byte stored for the first read. -/
theorem done_without_bytes : ¬∀ x : Transfer, x.Starts →
    (∀ m ∈ x.msgs, m.addr.toNat < 128 ∧
      (m.IsRead → 1 ≤ m.len.toNat ∧ m.len.toNat ≤ 255)) →
    ∀ s, Reached iicCore x s → s.mem.state = .done →
    ∀ j r, x.msgs[j]? = some r → r.IsRead → (storesOf j s.trace).length = r.len.toNat := by
  intro h
  have hrun : (runTransfer writeReadRead probed [emptied, arrived, finished]).map (fun s =>
      decide (s.mem.state = .done ∧ storesOf 1 s.trace = [])) = some true := by
    decide +kernel
  obtain ⟨s, hs, hend⟩ := Option.map_eq_some_iff.mp hrun
  have hreach := runTransfer_reached ⟨rfl, rfl, rfl⟩ hs
  obtain ⟨hdone, hstores⟩ := of_decide_eq_true hend
  have hlength := h writeReadRead (by decide) (by decide) s hreach hdone 1 ⟨0x50, 1, 1⟩ rfl (by decide)
  rw [hstores] at hlength
  exact absurd hlength (by decide)

/-- While the first read is outstanding, the second one takes its place. -/
def replaces (s t : Sys IicCore) : Bool :=
  decide (s.mem.rxMsg = some 1 ∧ s.mem.rxPos = 0 ∧ t.mem.rxMsg = some 2 ∧ t.mem.txMsg = some 2)

theorem outstanding_read_replaced : ¬∀ x : Transfer, ∀ s t, StepOf iicCore x s t → Isolated x s t := by
  intro h
  have hrun : (runTransfer writeReadRead probed []).map (fun s =>
      (watch (onDevice IicCore.answer emptied) replaces 40 xiicProcess s).1) = some true := by
    decide +kernel
  obtain ⟨r, hr, hwatch⟩ := Option.map_eq_some_iff.mp hrun
  obtain ⟨s, t, hsteps, hbad⟩ := (watch_sound xiicProcess r).2 hwatch
  have hstep : StepOf iicCore writeReadRead s t :=
    .process (runTransfer_reached ⟨rfl, rfl, rfl⟩ hr)
      ((onDevice_refines IicCore.answer emptied).steps _ hsteps)
  obtain ⟨hrx, hpos, hrx', htx'⟩ := of_decide_eq_true hbad
  have hlt : s.mem.rxPos < (1 : BitVec 16).toNat := by
    rw [hpos]
    decide
  rcases (h _ s t hstep).1 1 ⟨0x50, 1, 1⟩ hrx rfl hlt with hkept | hended
  · exact absurd (hrx'.symm.trans hkept.1) (by simp)
  · exact absurd (htx'.symm.trans hended) (by simp)

end Runs

end PynqPrio.Iic
