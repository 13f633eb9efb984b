import PynqPrio.IicRules

/-!
# The message cursor

The fields `tx_msg`, `nmsgs`, `tx_pos`, `rx_msg` and `rx_pos` are advanced from three
places. Whatever the registers read, the cursor stays inside the message list, every
access to a buffer is inside its message, and neither space macro underflows.
-/
namespace PynqPrio.Iic
open Programs Programs.Driver Programs.Prog

structure Transfer where
  msgs : List I2cMsg
  bufs : ℕ → ℕ → BitVec 8
  pos : 0 < msgs.length
  lt : msgs.length < 2147483648

/-- The accesses of the event stay inside the message they are made for. -/
def Event.InBounds (msgs : List I2cMsg) : Event → Prop
  | .load i p => ∃ m, msgs[i]? = some m ∧ p < m.len.toNat
  | .store i p _ => ∃ m, msgs[i]? = some m ∧ m.IsRead ∧ 0 ≤ p ∧ p < m.len.toNat
  | .txSpace len pos => pos ≤ len
  | .rxSpace len pos => 0 ≤ pos ∧ pos ≤ len
  | .nullPointer => False
  | _ => True

def InBounds (msgs : List I2cMsg) (s : Sys Unit) : Prop := ∀ e ∈ s.trace, e.InBounds msgs

theorem inBounds_withMem {msgs : List I2cMsg} {s : Sys Unit} (d : XiicI2c) :
    InBounds msgs (s.withMem d) ↔ InBounds msgs s := Iff.rfl

theorem inBounds_noted {msgs : List I2cMsg} {s : Sys Unit} (e : Event) :
    InBounds msgs (s.noted e) ↔ InBounds msgs s ∧ e.InBounds msgs := by
  simp [InBounds, or_imp, forall_and]

structure Idle (d : XiicI2c) : Prop where
  txMsg : d.txMsg = none
  rxMsg : d.rxMsg = none
  nmsgs : d.nmsgs = 0

/-- The cursor is at message `i` of the transfer, with header `m`, and a read that is
outstanding is not ahead of it. -/
structure At (x : Transfer) (d : XiicI2c) (i : ℕ) (m : I2cMsg) : Prop where
  msgs : d.msgs = x.msgs
  txMsg : d.txMsg = some i
  msg : x.msgs[i]? = some m
  nmsgs : i + d.nmsgs = x.msgs.length
  rx : ∀ j, d.rxMsg = some j → j ≤ i ∧ ∃ r, x.msgs[j]? = some r ∧ r.IsRead

/-- The cursor is at message `i` and both positions are inside their messages. -/
structure Live (x : Transfer) (d : XiicI2c) (i : ℕ) (m : I2cMsg) : Prop extends At x d i m where
  txPos : d.txPos ≤ m.len.toNat
  rxPos : ∀ j r, d.rxMsg = some j → x.msgs[j]? = some r →
    0 ≤ d.rxPos ∧ d.rxPos ≤ r.len.toNat
  state : d.state = .start

/-- What holds of the driver's structure between two runs. -/
def Cursor (x : Transfer) (d : XiicI2c) : Prop := Idle d ∨ ∃ i m, Live x d i m

namespace At

variable {x : Transfer} {d : XiicI2c} {i : ℕ} {m : I2cMsg}

theorem lt (h : At x d i m) : i < x.msgs.length :=
  (List.getElem?_eq_some_iff.mp h.msg).1

theorem get (h : At x d i m) : d.msgs[i]? = some m := h.msgs ▸ h.msg

theorem nmsgs_pos (h : At x d i m) : 1 ≤ d.nmsgs := by
  have := h.lt
  have := h.nmsgs
  omega

/-- `nmsgs--; tx_msg++` moves to the next message when one remains. -/
theorem next (h : At x d i m) (hn : 1 < d.nmsgs) :
    ∃ m', At x { d with nmsgs := u32 (d.nmsgs - 1), txMsg := d.txMsg.map (· + 1) } (i + 1) m' := by
  have hle := h.nmsgs
  have hlt := x.lt
  have hi : i + 1 < x.msgs.length := by omega
  refine ⟨x.msgs[i + 1], h.msgs, by simp [h.txMsg], List.getElem?_eq_getElem hi, ?_, ?_⟩
  · simp only [u32]
    omega
  · intro j hj
    obtain ⟨hji, hr⟩ := h.rx j hj
    exact ⟨by omega, hr⟩

/-- `__xiic_start_xfer` puts both positions at the start of the message. -/
theorem restart (h : At x d i m) :
    Live x { d with rxPos := 0, txPos := 0, state := .start } i m := by
  refine ⟨⟨h.msgs, h.txMsg, h.msg, h.nmsgs, h.rx⟩, Nat.zero_le _, ?_, rfl⟩
  intro j r _ _
  simp

end At

namespace Live

variable {x : Transfer} {d : XiicI2c} {i : ℕ} {m : I2cMsg}

/-- Moving `tx_pos` inside the message keeps the cursor. -/
theorem setTxPos (h : Live x d i m) {p : ℕ} (hp : p ≤ m.len.toNat) :
    Live x { d with txPos := p } i m :=
  ⟨⟨h.msgs, h.txMsg, h.msg, h.nmsgs, h.rx⟩, hp, h.rxPos, h.state⟩

/-- So does moving `rx_pos` inside the outstanding read. -/
theorem setRxPos (h : Live x d i m) {j : ℕ} {r : I2cMsg} (hj : d.rxMsg = some j)
    (hr : x.msgs[j]? = some r) {p : ℤ} (hp : 0 ≤ p ∧ p ≤ r.len.toNat)
    (bufs : ℕ → ℕ → BitVec 8) : Live x { d with rxPos := p, bufs := bufs } i m := by
  refine ⟨⟨h.msgs, h.txMsg, h.msg, h.nmsgs, h.rx⟩, h.txPos, ?_, h.state⟩
  intro j' r' hj' hr'
  obtain rfl : j = j' := Option.some.inj (hj.symm.trans hj')
  obtain rfl : r = r' := Option.some.inj (hr.symm.trans hr')
  exact hp

/-- So does the end of the outstanding read. -/
theorem clearRx (h : Live x d i m) : Live x { d with rxMsg := none } i m :=
  ⟨⟨h.msgs, h.txMsg, h.msg, h.nmsgs, by simp⟩, h.txPos, by simp, h.state⟩

/-- The loop of `__xiic_start_xfer` goes on to the next message from its first byte. -/
theorem next (h : Live x d i m) (hn : 1 < d.nmsgs) :
    ∃ m', Live x { d with
      nmsgs := u32 (d.nmsgs - 1), txMsg := d.txMsg.map (· + 1), txPos := 0 } (i + 1) m' := by
  obtain ⟨m', h'⟩ := h.toAt.next hn
  exact ⟨m', ⟨h'.msgs, h'.txMsg, h'.msg, h'.nmsgs, h'.rx⟩, Nat.zero_le _, h.rxPos, h.state⟩

end Live

abbrev free : Sys Unit → Sys Unit → Prop := fun _ _ => True

section Functions

variable {x : Transfer} {s : Sys Unit} {i : ℕ} {m : I2cMsg}

theorem fillTxWord_cursor (h : Live x s.mem i m) (hlt : s.mem.txPos < m.len.toNat)
    (hs : InBounds x.msgs s) :
    Meets anyDevice free fillTxWord (fun _ t => InBounds x.msgs t ∧
      t.mem = { s.mem with txPos := s.mem.txPos + 1 }) s := by
  have hlen := len_lt m
  have hpos : u32 ((s.mem.txPos : ℤ) + 1) = s.mem.txPos + 1 := by
    simp only [u32]
    omega
  have hload : (Event.load i s.mem.txPos).InBounds x.msgs := ⟨m, h.msg, hlt⟩
  simp only [fillTxWord, meets_bind, meets_any_get, meets_loadTxByte h.txMsg, hpos, true_and,
    implies_true]
  refine (meets_txSpace (i := i) (m := m) ?_ ?_).mpr ⟨trivial, ?_⟩
  · exact h.txMsg
  · exact h.toAt.get
  simp only [true_and, meets_setreg16, inBounds_noted, inBounds_withMem, hs, hload]
  exact ⟨⟨hlt, trivial⟩, rfl⟩

theorem fill_cursor (h : Live x s.mem i m) (hs : InBounds x.msgs s) :
    Meets anyDevice free xiicFillTxFifo (fun _ t => InBounds x.msgs t ∧
      ∃ p, s.mem.txPos ≤ p ∧ p ≤ m.len.toNat ∧
        t.mem = { s.mem with txPos := p }) s := by
  have hpos := h.txPos
  refine meets_fillTxFifo (J := fun k t => InBounds x.msgs t ∧
    t.mem = { s.mem with txPos := s.mem.txPos + k })
    h.txMsg h.toAt.get hpos trivial ?_ ?_ ?_
  · exact ⟨(inBounds_noted _).mpr ⟨hs, hpos⟩, rfl⟩
  · intro k t hk hpost
    obtain ⟨ht, hmem⟩ := hpost
    have hlive : Live x t.mem i m := by
      rw [hmem]
      exact h.setTxPos (by omega)
    refine (fillTxWord_cursor hlive (by rw [hmem]; simp only; omega) ht).imp ?_
    intro _ u hpost
    obtain ⟨hu, humem⟩ := hpost
    refine ⟨hu, ?_⟩
    rw [humem, hmem]
    simp only [Nat.add_assoc]
  · intro k t hk hpost
    obtain ⟨ht, hmem⟩ := hpost
    exact ⟨ht, _, Nat.le_add_right _ _, by omega, hmem⟩

theorem storeRxByte_cursor {j : ℕ} {r : I2cMsg} (hj : s.mem.rxMsg = some j)
    (hr : x.msgs[j]? = some r) (hread : r.IsRead) (h0 : 0 ≤ s.mem.rxPos)
    (hlt : s.mem.rxPos < r.len.toNat) (hs : InBounds x.msgs s) :
    Meets anyDevice free storeRxByte (fun _ t => InBounds x.msgs t ∧
      t.mem = { s.mem with rxPos := s.mem.rxPos + 1, bufs := t.mem.bufs }) s := by
  refine (meets_storeRxByte hj).mpr fun byte => ⟨trivial, fun _ => trivial, ?_, rfl⟩
  exact (inBounds_noted _).mpr ⟨hs, r, hr, hread, h0, hlt⟩

theorem readRx_cursor {j : ℕ} {r : I2cMsg} (h : Live x s.mem i m) (hj : s.mem.rxMsg = some j)
    (hr : x.msgs[j]? = some r) (hs : InBounds x.msgs s) :
    Meets anyDevice free xiicReadRx (fun _ t => InBounds x.msgs t ∧
      ∃ p : ℤ, 0 ≤ p ∧ p ≤ r.len.toNat ∧
        t.mem = { s.mem with rxPos := p, bufs := t.mem.bufs }) s := by
  obtain ⟨h0, hle⟩ := h.rxPos j r hj hr
  obtain ⟨-, r', hr', hread⟩ := h.rx j hj
  obtain rfl : r = r' := Option.some.inj (hr.symm.trans hr')
  have hget : s.mem.msgs[j]? = some r := h.msgs ▸ hr
  refine meets_readRx (J := fun k t => InBounds x.msgs t ∧
    t.mem = { s.mem with rxPos := s.mem.rxPos + k, bufs := t.mem.bufs }) hj hget ⟨h0, hle⟩
    trivial ?_ ?_ ?_
  · exact ⟨(inBounds_noted _).mpr ⟨hs, h0, hle⟩, by simp⟩
  · intro k t hk hpost
    obtain ⟨ht, hmem⟩ := hpost
    have hj' : t.mem.rxMsg = some j := by rw [hmem, hj]
    have hpos : t.mem.rxPos = s.mem.rxPos + k := by rw [hmem]
    refine (storeRxByte_cursor hj' hr hread (by omega) (by omega) ht).imp ?_
    intro _ u hpost
    obtain ⟨hu, humem⟩ := hpost
    refine ⟨hu, ?_⟩
    rw [humem, hmem]
    simp only [Nat.cast_add, Nat.cast_one, add_assoc]
  · intro k t hk hpost
    obtain ⟨ht, hmem⟩ := hpost
    have hj' : t.mem.rxMsg = some j := by rw [hmem, hj]
    have hpos : t.mem.rxPos = s.mem.rxPos + k := by rw [hmem]
    have hget' : t.mem.msgs[j]? = some r := by rw [hmem]; exact hget
    refine (meets_rxSpace hj' hget').mpr ⟨trivial, ?_, _, ?_, ?_, hmem⟩
    · exact (inBounds_noted _).mpr ⟨ht, by omega, by omega⟩
    · omega
    · omega

theorem readRx_live {j : ℕ} (h : Live x s.mem i m) (hj : s.mem.rxMsg = some j)
    (hs : InBounds x.msgs s) :
    Meets anyDevice free xiicReadRx (fun _ t => InBounds x.msgs t ∧ Live x t.mem i m ∧
      t.mem.rxMsg = some j) s := by
  obtain ⟨_, r, hr, _⟩ := h.rx j hj
  refine (readRx_cursor h hj hr hs).imp ?_
  intro _ t hpost
  obtain ⟨ht, p, hp0, hp, hmem⟩ := hpost
  rw [hmem]
  exact ⟨ht, h.setRxPos hj hr ⟨hp0, hp⟩ _, hj⟩

/-- Starting a read makes it the outstanding one and counts it as transmitted. -/
theorem startRecv_cursor (h : At x s.mem i m) (hread : m.IsRead) (h0 : s.mem.rxPos = 0)
    (hstate : s.mem.state = .start) (hs : InBounds x.msgs s) :
    Meets anyDevice free xiicStartRecv (fun _ t => InBounds x.msgs t ∧ Live x t.mem i m) s := by
  have hget : (s.withMem { s.mem with rxMsg := s.mem.txMsg }).mem.msgs[i]? = some m := h.get
  have hlive : Live x { s.mem with rxMsg := s.mem.txMsg, txPos := m.len.toNat } i m := by
    refine ⟨⟨h.msgs, h.txMsg, h.msg, h.nmsgs, ?_⟩, le_rfl, ?_, hstate⟩
    · intro j hj
      obtain rfl : i = j := Option.some.inj (h.txMsg.symm.trans hj)
      exact ⟨le_rfl, m, h.msg, hread⟩
    · intro j r _ _
      simp [h0]
  simp only [xiicStartRecv, meets_bind, meets_any_modify, meets_any_get, meets_irqClrEn,
    meets_setreg8, meets_ite, meets_setreg16, true_and, implies_true]
  refine (meets_deref (i := i) (m := m) h.txMsg hget).mpr ?_
  simp only [inBounds_noted, inBounds_withMem, hs, Event.InBounds, true_and, and_true]
  have : ∀ p : Prop, (p → Live x _ i m) ∧ (¬p → Live x _ i m) := fun _ =>
    ⟨fun _ => hlive, fun _ => hlive⟩
  exact ⟨fun _ => this _, fun _ => this _⟩

theorem startRecv_mem (h : At x s.mem i m) : Meets anyDevice free xiicStartRecv
    (fun _ t => t.mem = { s.mem with rxMsg := some i, txPos := m.len.toNat }) s := by
  simp only [xiicStartRecv, meets_bind, meets_any_modify, meets_any_get, meets_irqClrEn,
    meets_setreg8, meets_ite, meets_setreg16, true_and, implies_true]
  refine (meets_deref (i := i) (m := m) (by exact h.txMsg) (by exact h.get)).mpr ?_
  simp [h.txMsg]

theorem startSend_cursor (h : Live x s.mem i m) (hs : InBounds x.msgs s) :
    Meets anyDevice free xiicStartSend (fun _ t => InBounds x.msgs t ∧
      ∃ p, p ≤ m.len.toNat ∧ t.mem = { s.mem with txPos := p }) s := by
  -- the address word changes the trace only
  have hfill : ∀ t : Sys Unit, t.mem = s.mem → InBounds x.msgs t →
      Meets anyDevice free xiicFillTxFifo (fun _ t => InBounds x.msgs t ∧
        ∃ p, p ≤ m.len.toNat ∧ t.mem = { s.mem with txPos := p }) t := by
    intro t hmem ht
    refine (fill_cursor (hmem ▸ h) ht).imp ?_
    intro _ u hpost
    obtain ⟨hu, p, _, hp, humem⟩ := hpost
    exact ⟨hu, p, hp, by rw [humem, hmem]⟩
  simp only [xiicStartSend, meets_bind, meets_any_get, meets_irqClr, meets_ite, meets_irqClrEn]
  refine (meets_deref (i := i) (m := m) h.txMsg h.toAt.get).mpr ⟨fun _ => ?_, fun _ => ?_⟩
  · simp only [meets_setreg16, true_and]
    exact hfill _ rfl ((inBounds_noted _).mpr ⟨hs, trivial⟩)
  · exact hfill _ rfl hs

/-- The state in which `__xiic_start_xfer` looks at its loop condition. -/
def Starting (x : Transfer) (s : Sys Unit) : Prop :=
  InBounds x.msgs s ∧ s.mem.rxPos = 0 ∧ ∃ i m, Live x s.mem i m

theorem startCurrent_cursor (h : Starting x s) :
    Meets anyDevice free startCurrent (fun r t => match r with
      | .inl st => Starting x t ∧ st.1 = false ∧ t.mem.nmsgs = s.mem.nmsgs
      | .inr _ => InBounds x.msgs t ∧ ∃ i m, Live x t.mem i m) s := by
  obtain ⟨hs, h0, i, m, h⟩ := h
  simp only [startCurrent, meets_bind, meets_any_get]
  refine (meets_deref (i := i) (m := m) h.txMsg h.toAt.get).mpr ?_
  simp only [meets_ite, meets_bind, meets_pure, meets_txFifoSpace]
  refine ⟨fun hread => ?_, fun hwrite => ?_⟩
  · refine (startRecv_cursor h.toAt hread h0 h.state hs).imp ?_
    intro _ u hpost
    obtain ⟨hu, hlive⟩ := hpost
    exact ⟨hu, i, m, hlive⟩
  · refine (startSend_cursor h hs).imp ?_
    intro _ u hpost
    obtain ⟨hu, p, hp, hmem⟩ := hpost
    have hlive : Live x u.mem i m := hmem ▸ h.setTxPos hp
    have hu' : InBounds x.msgs (u.noted (.txSpace m.len.toNat u.mem.txPos)) :=
      (inBounds_noted _).mpr ⟨hu, hlive.txPos⟩
    refine (meets_txSpace hlive.txMsg hlive.toAt.get).mpr ⟨trivial, fun _ => ?_, fun _ v => ?_⟩
    · exact ⟨hu', i, m, hlive⟩
    · exact ⟨⟨hu', by simp [hmem, h0], i, m, hlive⟩, trivial, by simp [hmem]⟩

/-- Every iteration but the first takes a message off `nmsgs`. -/
theorem startXferBody_cursor (h : Starting x s) (first : Bool) (space : ℤ) :
    Meets anyDevice free (startXferBody first space) (fun r t => match r with
      | .inl st => Starting x t ∧ st.1 = false ∧ t.mem.nmsgs + 1 ≤ s.mem.nmsgs + first.toNat
      | .inr _ => InBounds x.msgs t ∧ ∃ i m, Live x t.mem i m) s := by
  simp only [startXferBody, nextMsg, meets_bind, meets_any_get, meets_ite, meets_any_modify,
    meets_pure, true_and, implies_true]
  refine ⟨fun hc => ⟨fun hfirst => ?_, fun hfirst => ?_⟩, fun _ => ⟨h.1, h.2.2⟩⟩
  · obtain ⟨hs, h0, i, m, h⟩ := h
    have hn : 1 < s.mem.nmsgs := by simpa [hfirst] using hc.2
    obtain ⟨m', h'⟩ := h.next hn
    refine Meets.imp (startCurrent_cursor ⟨hs, h0, i + 1, m', h'⟩) ?_
    intro r t ht
    cases r with
    | inl st =>
      obtain ⟨hst, hfalse, hnmsgs⟩ := ht
      have hle := h'.nmsgs
      have hle' := h.nmsgs
      refine ⟨hst, hfalse, ?_⟩
      simp only [Config.withMem_mem] at hnmsgs hle
      omega
    | inr returned => exact ht
  · refine (startCurrent_cursor h).imp ?_
    intro r t ht
    cases r with
    | inl st =>
      obtain ⟨hst, hfalse, hnmsgs⟩ := ht
      exact ⟨hst, hfalse, by simp [hnmsgs, Bool.eq_true_of_not_eq_false hfirst]⟩
    | inr returned => exact ht

theorem startXferUnlocked_cursor (h : At x s.mem i m) (hs : InBounds x.msgs s) :
    Meets anyDevice free xiicStartXferUnlocked
      (fun _ t => InBounds x.msgs t ∧ ∃ i m, Live x t.mem i m) s := by
  simp only [xiicStartXferUnlocked, meets_bind, meets_txFifoSpace, meets_any_get, h.txMsg,
    meets_any_note, meets_any_modify, true_and, implies_true]
  intro v
  refine meets_iterate (fun _ t => Starting x t) ?_ fun st t ht =>
    (startXferBody_cursor ht st.1 st.2).imp ?_
  · exact ⟨(inBounds_noted _).mpr ⟨hs, trivial⟩, rfl, i, m, h.restart⟩
  · intro r u hu
    cases r with
    | inl st => exact hu.1
    | inr returned =>
      obtain ⟨hu, j, m', hlive⟩ := hu
      have hu' : InBounds x.msgs (u.noted (.txSpace m'.len.toNat u.mem.txPos)) :=
        (inBounds_noted _).mpr ⟨hu, hlive.txPos⟩
      simp only [meets_ite, meets_bind, meets_pure, meets_any_get, meets_irqClrEn]
      refine ⟨fun _ => ⟨fun _ => ?_, fun _ => ?_⟩, fun _ => ⟨hu, j, m', hlive⟩⟩
      · exact ⟨fun _ => ⟨hu, j, m', hlive⟩, fun _ => ⟨hu, j, m', hlive⟩⟩
      · refine (meets_txSpace hlive.txMsg hlive.toAt.get).mpr ⟨trivial, fun _ => ?_, fun _ => ?_⟩
        · exact ⟨hu', j, m', hlive⟩
        · exact ⟨hu', j, m', hlive⟩

end Functions

section Process

variable {x : Transfer} {s : Sys Unit}

/-- The invariant of the states between two runs. -/
def Good (x : Transfer) (s : Sys Unit) : Prop := InBounds x.msgs s ∧ Cursor x s.mem

theorem Good.noted {e : Event} (h : Good x s) (he : e.InBounds x.msgs) : Good x (s.noted e) :=
  ⟨(inBounds_noted e).mpr ⟨h.1, he⟩, h.2⟩

/-! With no transfer, no branch changes the configuration; the first one may reset the device. -/

section Idle

variable {G : Sys Unit → Sys Unit → Prop}

theorem processError_idle (h : Idle s.mem) (hG : G s (s.noted .reinit)) (pend : BitVec 32) :
    Meets anyDevice G (processError pend) (fun _ t => t = s ∨ t = s.noted .reinit) s := by
  simp only [processError, meets_bind, meets_ite, meets_pure, meets_any_get]
  refine ⟨fun _ => meets_reinit hG ?_, fun _ => .inl trivial⟩
  simp [h.rxMsg, h.txMsg]

theorem processRx_idle (h : Idle s.mem) (isr pend clr : BitVec 32) :
    Meets anyDevice G (processRx isr pend clr) (fun _ t => t = s) s := by
  simp only [processRx, meets_bind, meets_ite, meets_pure, meets_any_get, h.rxMsg]
  exact ⟨fun _ => trivial, fun _ => ⟨fun _ => meets_clearRxFifo rfl, fun hc => absurd rfl hc⟩⟩

theorem processBnb_idle (h : Idle s.mem) (out : Bool) (pend clr : BitVec 32) :
    Meets anyDevice G (processBnb out pend clr) (fun _ t => t = s) s := by
  simp [processBnb, h.txMsg]

theorem processTx_idle (h : Idle s.mem) (out : Bool) (pend clr : BitVec 32) :
    Meets anyDevice G (processTx out pend clr) (fun _ t => t = s) s := by
  simp [processTx, h.txMsg]

theorem process_idle (h : Idle s.mem) (hpend : ∀ p, G s (s.noted (.pend p)))
    (hreinit : ∀ p, G (s.noted (.pend p)) ((s.noted (.pend p)).noted .reinit)) :
    Meets anyDevice G xiicProcess (fun _ t => ∃ p, t = s.noted (.pend p) ∨
      t = (s.noted (.pend p)).noted .reinit) s := by
  simp only [xiicProcess, meets_bind, meets_getreg32, meets_any_note, meets_setreg32]
  intro isr ier
  refine ⟨hpend _, (processError_idle (s := s.noted (.pend (isr &&& ier))) h (hreinit _) _).imp ?_⟩
  intro _ t ht
  have hidle : Idle t.mem := by
    rcases ht with rfl | rfl
    · exact h
    · exact h
  refine (processRx_idle hidle _ _ _).imp ?_
  rintro r _ rfl
  refine (processBnb_idle hidle _ _ _).imp ?_
  rintro r' _ rfl
  refine (processTx_idle hidle _ _ _).imp ?_
  rintro clr _ rfl
  exact ⟨_, ht⟩

end Idle

/-! With a transfer, each branch keeps the cursor or ends the transfer. -/

theorem good_wakeup (h : InBounds x.msgs s) (code : XilinxI2cState) :
    Meets anyDevice free (xiicWakeup code) (fun _ t => Good x t ∧ Idle t.mem) s := by
  simp only [xiicWakeup, meets_bind, meets_any_modify, meets_any_note, true_and, implies_true]
  have hidle : Idle { s.mem with txMsg := none, rxMsg := none, nmsgs := 0, state := code } :=
    ⟨rfl, rfl, rfl⟩
  exact ⟨⟨(inBounds_noted _).mpr ⟨h, trivial⟩, .inl hidle⟩, hidle⟩

theorem processError_good (h : Good x s) (pend : BitVec 32) :
    Meets anyDevice free (processError pend) (fun _ t => Good x t) s := by
  simp only [processError, meets_bind, meets_ite, meets_pure, meets_any_get]
  refine ⟨fun _ => meets_reinit trivial ⟨fun _ => ?_, fun _ => ?_⟩, fun _ => h⟩
  · refine (good_wakeup (h.noted (e := .reinit) trivial).1 _).imp ?_
    intro _ t hpost
    obtain ⟨ht, hidle⟩ := hpost
    simp [hidle.txMsg, ht]
  · refine ⟨fun _ => ?_, fun _ => h.noted trivial⟩
    exact (good_wakeup (h.noted (e := .reinit) trivial).1 _).imp fun _ t ht => ht.1

/-- The cursor is inside the transfer, and every access so far was in bounds. -/
def Running (x : Transfer) (s : Sys Unit) : Prop := InBounds x.msgs s ∧ ∃ i m, Live x s.mem i m

theorem Running.good (h : Running x s) : Good x s := ⟨h.1, .inr h.2⟩

theorem processRx_running (h : Running x s) (isr pend clr : BitVec 32) :
    Meets anyDevice free (processRx isr pend clr) (fun _ t => Running x t) s := by
  obtain ⟨hs, i, m, hlive⟩ := h
  have hrunning : Running x s := ⟨hs, i, m, hlive⟩
  simp only [processRx, nextMsg, meets_bind, meets_ite, meets_pure, meets_any_get,
    meets_any_modify, true_and, implies_true]
  refine ⟨fun _ => hrunning, fun _ => ⟨fun _ => meets_clearRxFifo hrunning, fun hrx => ?_⟩⟩
  obtain ⟨j, hj⟩ := Option.ne_none_iff_exists'.mp (by simpa using hrx)
  obtain ⟨hji, r, hr, hread⟩ := hlive.rx j hj
  refine (readRx_live hlive hj hs).imp ?_
  intro _ t hpost
  obtain ⟨ht, hlive', hj'⟩ := hpost
  have hpos := hlive'.rxPos j r hj' hr
  have ht' : InBounds x.msgs (t.noted (.rxSpace r.len.toNat t.mem.rxPos)) :=
    (inBounds_noted _).mpr ⟨ht, hpos⟩
  refine (meets_rxSpace hj' (hlive'.msgs ▸ hr)).mpr
    ⟨trivial, fun _ => ⟨ht', i, m, hlive'⟩, fun _ => ?_⟩
  -- the read is complete: nothing is outstanding while the next message is started
  have hdone := hlive'.clearRx
  refine ⟨fun hn => ?_, fun _ => ⟨ht', i, m, hdone⟩⟩
  obtain ⟨m', hnext⟩ := hdone.toAt.next hn
  exact startXferUnlocked_cursor hnext ht'

theorem processRx_good (h : Good x s) (isr pend clr : BitVec 32) :
    Meets anyDevice free (processRx isr pend clr) (fun _ t => Good x t) s := by
  obtain ⟨hs, hidle | hlive⟩ := h
  · refine (processRx_idle hidle isr pend clr).imp ?_
    rintro _ _ rfl
    exact ⟨hs, .inl hidle⟩
  · exact (processRx_running ⟨hs, hlive⟩ isr pend clr).imp fun _ _ ht => ht.good

theorem processBnb_good (h : Good x s) (out : Bool) (pend clr : BitVec 32) :
    Meets anyDevice free (processBnb out pend clr) (fun _ t => Good x t) s := by
  obtain ⟨hs, hidle | ⟨i, m, hlive⟩⟩ := h
  · refine (processBnb_idle hidle out pend clr).imp ?_
    rintro _ _ rfl
    exact ⟨hs, .inl hidle⟩
  have hgood : Good x s := ⟨hs, .inr ⟨i, m, hlive⟩⟩
  simp only [processBnb, meets_bind, meets_ite, meets_pure, meets_any_get, meets_irqDis]
  refine ⟨fun _ => hgood, fun _ => ⟨fun _ => hgood, fun _ => ⟨fun _ => ?_, fun _ => ?_⟩⟩⟩
  · have ht : Good x (s.noted (.txSpace m.len.toNat s.mem.txPos)) := hgood.noted hlive.txPos
    refine (meets_txSpace hlive.txMsg hlive.toAt.get).mpr ⟨trivial, ?_⟩
    exact (good_wakeup ht.1 _).imp fun _ _ hu => hu.1
  · exact (good_wakeup hs _).imp fun _ _ hu => hu.1

theorem processTxDone_running {i : ℕ} {m : I2cMsg} (hlive : Live x s.mem i m)
    (hs : InBounds x.msgs s) :
    Meets anyDevice free processTxDone (fun _ t => Running x t) s := by
  have ht : Running x (s.noted (.txSpace m.len.toNat s.mem.txPos)) :=
    ⟨(inBounds_noted _).mpr ⟨hs, hlive.txPos⟩, i, m, hlive⟩
  simp only [processTxDone, nextMsg, meets_bind, meets_ite, meets_pure, meets_any_get,
    meets_txFifoSpace, meets_irqDis, meets_any_modify, true_and, implies_true]
  refine (meets_txSpace hlive.txMsg hlive.toAt.get).mpr ⟨trivial, fun _ v => ?_, fun _ => ht⟩
  refine ⟨fun _ => ⟨fun hn => ?_, fun _ => ht⟩, fun _ => ⟨fun _ => ht, fun _ => ht⟩⟩
  obtain ⟨m', hnext⟩ := hlive.toAt.next hn
  exact startXferUnlocked_cursor hnext ht.1

theorem processTx_running (h : Running x s) (out : Bool) (pend clr : BitVec 32) :
    Meets anyDevice free (processTx out pend clr) (fun _ t => Running x t) s := by
  obtain ⟨hs, i, m, hlive⟩ := h
  have hrunning : Running x s := ⟨hs, i, m, hlive⟩
  simp only [processTx, meets_bind, meets_ite, meets_pure, meets_any_get]
  refine ⟨fun _ => hrunning, fun _ => ⟨fun _ => hrunning, fun _ => ?_⟩⟩
  refine (fill_cursor hlive hs).imp ?_
  intro _ t hpost
  obtain ⟨ht, p, _, hp, hmem⟩ := hpost
  exact processTxDone_running (hmem ▸ hlive.setTxPos hp) ht

theorem processTx_good (h : Good x s) (out : Bool) (pend clr : BitVec 32) :
    Meets anyDevice free (processTx out pend clr) (fun _ t => Good x t) s := by
  obtain ⟨hs, hidle | hlive⟩ := h
  · refine (processTx_idle hidle out pend clr).imp ?_
    rintro _ _ rfl
    exact ⟨hs, .inl hidle⟩
  · exact (processTx_running ⟨hs, hlive⟩ out pend clr).imp fun _ _ ht => ht.good

/-- A run of the interrupt thread keeps the invariant. -/
theorem process_good (h : Good x s) :
    Meets anyDevice free xiicProcess (fun _ t => Good x t) s := by
  simp only [xiicProcess, meets_bind, meets_getreg32, meets_any_note, meets_setreg32, true_and]
  intro isr ier
  refine (processError_good (h.noted (e := .pend (isr &&& ier)) trivial) _).imp ?_
  intro _ t ht
  refine (processRx_good ht isr _ 0).imp ?_
  intro r u hu
  refine (processBnb_good hu r.2 _ r.1).imp ?_
  intro r' v hv
  exact (processTx_good hv r'.2 _ r'.1).imp fun _ _ hw => hw

/-- The structure after the unlocked assignments of `xiic_xfer`. -/
def assigned (x : Transfer) (d : XiicI2c) : XiicI2c :=
  { d with msgs := x.msgs, bufs := x.bufs, txMsg := some 0, nmsgs := x.msgs.length }

/-- The first message is the current one then. -/
theorem Idle.at_assigned {x : Transfer} {d : XiicI2c} (h : Idle d) :
    At x (assigned x d) 0 (x.msgs.get ⟨0, x.pos⟩) :=
  ⟨rfl, rfl, List.getElem?_eq_getElem x.pos, Nat.zero_add _, by simp [assigned, h.rxMsg]⟩

/-- A transfer that finds the driver idle has a cursor after its start. -/
theorem start_good (h : Idle s.mem) (hs : InBounds x.msgs s) :
    Meets anyDevice free (startTransfer x.msgs x.bufs) (fun _ t => Running x t) s := by
  simp only [startTransfer, assignTransfer, xiicStartXfer, meets_bind, meets_any_modify, true_and, implies_true]
  refine meets_reinit trivial ?_
  exact startXferUnlocked_cursor h.at_assigned ((inBounds_noted _).mpr ⟨hs, trivial⟩)

end Process

section Runs

variable {δ : Type}

/-- The states of a transfer on a device: the state after its start, after any number of
runs of the interrupt thread, and after the timeout branch. -/
inductive Reached (dev : Machine Port Port.Res δ) (x : Transfer) : Sys δ → Prop where
  | start {s t : Sys δ} (idle : Idle s.mem) (trace : s.trace = [])
      (run : Exec (withMemory dev) (startTransfer x.msgs x.bufs) s () t) : Reached dev x t
  | process {s t : Sys δ} (h : Reached dev x s)
      (run : Exec (withMemory dev) xiicProcess s () t) : Reached dev x t
  | timeout {s t : Sys δ} (h : Reached dev x s)
      (run : Exec (withMemory dev) timeoutCleanup s () t) : Reached dev x t

/-- Every state of a transfer satisfies the invariant. -/
theorem Reached.good {dev : Machine Port Port.Res δ} {x : Transfer} {s : Sys δ}
    (h : Reached dev x s) : Good x s.core := by
  induction h with
  | @start s t idle trace run =>
    have hs : InBounds x.msgs s.core := by simp [InBounds, Config.core, trace]
    obtain ⟨hin, hlive⟩ := exec_of_meets (start_good idle hs) run
    exact ⟨hin, .inr hlive⟩
  | process _ run ih => exact exec_of_meets (process_good ih) run
  | @timeout s t _ run ih =>
    have hmeets : Meets anyDevice free timeoutCleanup (fun _ t => Good x t) s.core := by
      rw [timeoutCleanup, meets_any_modify]
      exact ⟨fun _ => trivial, ih.1, .inl ⟨rfl, rfl, rfl⟩⟩
    exact exec_of_meets hmeets run

/-- The answers of a device with nothing in its FIFOs that has only TX_EMPTY pending. -/
def drained : (p : Port) → Port.Res p
  | .getreg8 .sr => srRxFifoEmptyMask
  | .getreg8 _ => (0 : BitVec 8)
  | .getreg32 _ => intrTxEmptyMask
  | .setreg8 .. | .setreg16 .. | .setreg32 .. => ()

end Runs

end PynqPrio.Iic
