import PynqPrio.IicInterruptEnables

/-!
# What starting messages clears in the interrupt status register

Writing to `IISR` flips the bits of the word, so that `xiic_irq_clr`, which writes back what
it has just read, clears them. What `__xiic_start_xfer` clears follows from the messages it
starts, and these from their lengths and from the readings of `TFO`.
-/
namespace PynqPrio.Iic
open Programs Programs.Driver Programs.Prog

/-- The interrupt registers, the word written last to `IISR`, and what the occupancy
registers of the two FIFOs will read: `TFO` reads `tfo reads` next. -/
structure StatusRegs where
  iisr : BitVec 32
  iier : BitVec 32
  written : BitVec 32
  rfo : BitVec 8
  tfo : ℕ → BitVec 8
  reads : ℕ

/-- The device raises no interrupt. A write to `IISR` flips bits, and the reset clears both
interrupt registers. -/
def togglingStatus : Machine Port Port.Res StatusRegs
  | e, .getreg32 .iisr, v, e' => v = e.iisr ∧ e' = e
  | e, .getreg32 .iier, v, e' => v = e.iier ∧ e' = e
  | e, .getreg8 .rfo, v, e' => v = e.rfo ∧ e' = e
  | e, .getreg8 .tfo, v, e' => v = e.tfo e.reads ∧ e' = { e with reads := e.reads + 1 }
  | e, .setreg32 .iisr v, _, e' => e' = { e with iisr := e.iisr ^^^ v, written := v }
  | e, .setreg32 .iier v, _, e' => e' = { e with iier := v }
  | e, .setreg32 .resetr _, _, e' => e' = { e with iisr := 0, iier := 0 }
  | e, _, _, e' => e' = e

structure Clears (mask : BitVec 32) (n : ℕ) (e e' : StatusRegs) : Prop where
  iisr : e'.iisr = e.iisr &&& ~~~mask
  tfo : e'.tfo = e.tfo
  reads : e'.reads = e.reads + n

namespace Clears

variable {a b : BitVec 32} {n k : ℕ} {e e' e'' : StatusRegs}

theorem none (h : e'.iisr = e.iisr) (htfo : e'.tfo = e.tfo) (hreads : e'.reads = e.reads + n) :
    Clears 0 n e e' := by
  refine ⟨?_, htfo, hreads⟩
  exact h.trans BitVec.and_allOnes.symm

theorem trans (h : Clears a n e e') (h' : Clears b k e' e'') : Clears (a ||| b) (n + k) e e'' := by
  refine ⟨?_, h'.tfo.trans h.tfo, ?_⟩
  · rw [h'.iisr, h.iisr, BitVec.and_assoc, ← BitVec.not_or]
  · rw [h'.reads, h.reads, Nat.add_assoc]

/-- Reads of `TFO` before clearing change the count only. -/
theorem after (h' : Clears b k e' e'') (h : Clears 0 n e e') : Clears b (n + k) e e'' := by
  have hb : 0 ||| b = b := BitVec.zero_or
  rw [← hb]
  exact h.trans h'

end Clears

section Accesses

variable {s : Sys StatusRegs}

abbrev Gives {α : Type} (p : Xiic α) (Q : α → Sys StatusRegs → Prop) (s : Sys StatusRegs) : Prop :=
  Meets (withMemory togglingStatus) (onDev anyAccess) p Q s

def ClearsOnly (mask : BitVec 32) (s t : Sys StatusRegs) : Prop :=
  t.mem = s.mem ∧ Clears mask 0 s.dev t.dev

/-- What was read is flipped back, so the interrupts of the mask are cleared. -/
theorem gives_irqClr (mask : BitVec 32) : Gives (xiicIrqClr mask) (fun _ => ClearsOnly mask s) s := by
  simp only [xiicIrqClr, meets_bind, meets_dev_getreg32, meets_dev_setreg32]
  rintro _ _ ⟨rfl, rfl⟩
  refine ⟨trivial, ?_⟩
  rintro _ rfl
  refine ⟨trivial, rfl, ?_, rfl, rfl⟩
  ext k hk
  cases hbit : s.dev.iisr[k] <;> simp [hbit]

theorem gives_irqDis (mask : BitVec 32) : Gives (xiicIrqDis mask) (fun _ => ClearsOnly 0 s) s := by
  simp only [xiicIrqDis, meets_bind, meets_dev_getreg32, meets_dev_setreg32]
  rintro _ _ ⟨rfl, rfl⟩
  refine ⟨trivial, ?_⟩
  rintro _ rfl
  exact ⟨trivial, rfl, .none rfl rfl rfl⟩

theorem gives_irqClrEn (mask : BitVec 32) :
    Gives (xiicIrqClrEn mask) (fun _ => ClearsOnly mask s) s := by
  refine (meets_bind _ _).mpr ((gives_irqClr mask).imp ?_)
  rintro _ t ⟨hmem, hclears⟩
  simp only [xiicIrqEn, meets_bind, meets_dev_getreg32, meets_dev_setreg32]
  rintro _ _ ⟨rfl, rfl⟩
  refine ⟨trivial, ?_⟩
  rintro _ rfl
  exact ⟨trivial, hmem, hclears.iisr, hclears.tfo, hclears.reads⟩

def Port.KeepsStatus : Port → Prop
  | .getreg8 .tfo | .setreg32 .iisr _ | .setreg32 .iier _ | .setreg32 .resetr _ => False
  | _ => True

theorem eq_of_keepsStatus (p : Port) (e : StatusRegs) (x : Port.Res p) (e' : StatusRegs)
    (hp : p.KeepsStatus) (h : togglingStatus e p x e') : e' = e := by
  cases p with
  | getreg8 reg =>
    cases reg with
    | tfo => exact hp.elim
    | rfo => exact h.2
    | _ => exact h
  | getreg32 reg =>
    cases reg with
    | iisr => exact h.2
    | iier => exact h.2
    | _ => exact h
  | setreg8 reg w => exact h
  | setreg16 reg w => exact h
  | setreg32 reg w =>
    cases reg with
    | iisr => exact hp.elim
    | iier => exact hp.elim
    | resetr => exact hp.elim
    | _ => exact h

theorem gives_of_uses {α : Type} {p : Xiic α} (hp : UsesPorts Port.KeepsStatus p) :
    Gives p (fun _ t => t.dev = s.dev) s :=
  hp.meets (I := fun e => e = s.dev)
    (fun p e x e' h hI hdev => ⟨trivial, (eq_of_keepsStatus p e x e' h hdev).trans hI⟩) rfl

/-- The reset leaves no interrupt set. -/
theorem gives_reinit : Gives xiicReinit (fun _ t => t.mem = s.mem ∧ t.dev.iisr = 0) s := by
  have hkeep : ∀ {α : Type} {p : Xiic α}, UsesPorts Port.KeepsStatus p →
      ∀ {t : Sys StatusRegs}, t.dev.iisr = 0 → Gives p (fun _ u => u.dev.iisr = 0) t := by
    intro α p hp t ht
    exact (gives_of_uses hp).imp fun _ u hu => hu ▸ ht
  have hcore : Meets anyDevice free xiicReinit (fun _ t => t.mem = s.mem) s.core :=
    meets_reinit trivial rfl
  refine (meets_with_core (Q := fun _ t => t.dev.iisr = 0) ?_ hcore).imp
    fun _ t ht => ⟨ht.2, ht.1⟩
  refine (meets_bind _ _).mpr ((meets_onDev_note _).mpr ((meets_bind _ _).mpr
    ((meets_dev_setreg32 _ _).mpr ?_)))
  rintro _ rfl
  refine ⟨trivial, (meets_bind _ _).mpr ((hkeep (uses_setreg8 trivial) rfl).imp fun _ t ht => ?_)⟩
  refine (meets_bind _ _).mpr ((hkeep (uses_setreg8 trivial) ht).imp fun _ t ht => ?_)
  refine (meets_bind _ _).mpr ((hkeep (uses_setreg8 trivial) ht).imp fun _ t ht => ?_)
  refine (meets_bind _ _).mpr ((hkeep (uses_clearRxFifo trivial trivial) ht).imp fun _ t ht => ?_)
  refine (meets_bind _ _).mpr ((hkeep (@uses_setreg32 _ .dgier _ trivial) ht).imp fun _ t ht => ?_)
  refine (gives_irqClrEn intrArbLostMask).imp fun _ u hu => ?_
  rw [hu.2.iisr, ht]
  exact BitVec.zero_and

end Accesses

section Starts

/-- The space that the driver computes from a reading of `TFO`. -/
def txRoom (v : BitVec 8) : ℤ := 16 - v.toNat - 1

/-- What is cleared behind the loop, from position `pos` of the first message: the half-empty
interrupt if messages or bytes are left. -/
def leftClears : List I2cMsg → ℕ → BitVec 32
  | [], _ => 0
  | m :: rest, pos => if rest ≠ [] ∨ pos < m.len.toNat then intrTxHalfMask else 0

/-- What is cleared from the start of the first message on, when reading `n` of `TFO` is the
next one. A read ends the function. After a write that has been sent to its end the next
message is started if the FIFO has room for it. -/
def beginClears (tfo : ℕ → BitVec 8) : List I2cMsg → ℕ → BitVec 32
  | [], _ => 0
  | m :: rest, n =>
    if m.IsRead then recvMask
    else sendMask |||
      if u8 (txRoom (tfo n)) < m.len.toNat then intrTxHalfMask
      else if 2 ≤ txRoom (tfo (n + 1)) ∧ rest ≠ [] then beginClears tfo rest (n + 2)
      else leftClears (m :: rest) m.len.toNat

/-- What `__xiic_start_xfer` clears, which looks at the space before it begins. -/
def startClears (tfo : ℕ → BitVec 8) : List I2cMsg → ℕ → BitVec 32
  | [], _ => 0
  | m :: rest, n =>
    if 2 ≤ txRoom (tfo n) then beginClears tfo (m :: rest) (n + 1)
    else leftClears (m :: rest) 0

variable {x : Transfer} {s : Sys StatusRegs} {i : ℕ} {m : I2cMsg}

/-- Filling the FIFO reads `TFO` once and sends what it has room for. -/
theorem gives_fillTxFifo (hp : s.mem.txMsg = some i) (hm : s.mem.msgs[i]? = some m)
    (hpos : s.mem.txPos ≤ m.len.toNat) : Gives xiicFillTxFifo (fun _ t =>
      t.mem = { s.mem with
        txPos := s.mem.txPos + fillCount s.mem m (s.dev.tfo s.dev.reads) } ∧
      Clears 0 1 s.dev t.dev) s := by
  refine meets_dev_fillTxFifo (J := fun v k t => v = s.dev.tfo s.dev.reads ∧
    t.mem = { s.mem with txPos := s.mem.txPos + k } ∧ Clears 0 1 s.dev t.dev) hp hm hpos ?_ ?_ ?_
  · rintro v e ⟨rfl, rfl⟩
    exact ⟨trivial, rfl, rfl, .none rfl rfl rfl⟩
  · rintro v k t hk ⟨rfl, hmem, hclears⟩
    have hfit : k < m.len.toNat - s.mem.txPos := lt_of_lt_of_le hk (Nat.min_le_left _ _)
    refine (meets_dev_fillTxWord (i := i) (m := m) (by rw [hmem]; exact hp) (by rw [hmem]; exact hm)
      (by rw [hmem]; simp only; omega)).mpr ?_
    rintro _ rfl
    refine ⟨trivial, rfl, ?_, hclears⟩
    rw [hmem]
    rfl
  · rintro v t ⟨rfl, hmem, hclears⟩
    exact ⟨hmem, hclears⟩

theorem gives_startRecv (h : At x s.mem i m) : Gives xiicStartRecv (fun _ t =>
    t.mem = { s.mem with rxMsg := some i, txPos := m.len.toNat } ∧
    Clears recvMask 0 s.dev t.dev) s := by
  refine (meets_with_core (Q := fun _ t => Clears recvMask 0 s.dev t.dev) ?_
    (startRecv_mem h)).imp fun _ t ht => ⟨ht.2, ht.1⟩
  rw [xiicStartRecv, meets_bind, meets_onDev_modify, meets_bind, meets_get, meets_bind]
  refine (meets_dev_deref (i := i) (m := m) (by exact h.txMsg) (by exact h.get)).mpr ?_
  refine (meets_bind _ _).mpr ((gives_irqClrEn _).imp ?_)
  rintro _ t ⟨-, ht⟩
  have hend : ∀ u : Sys StatusRegs, u.dev = t.dev → Gives (do
      xiicIrqClrEn intrBnbMask
      let d ← get
      xiicSetreg16 .dtr (m.len ||| if d.nmsgs = 1 then txDynStopMask else 0)
      if d.nmsgs = 1 then xiicIrqClrEn intrBnbMask
      modify fun d => { d with txPos := m.len.toNat })
      (fun _ v => Clears recvMask 0 s.dev v.dev) u := by
    intro u hu
    refine (meets_bind _ _).mpr ((gives_irqClrEn _).imp ?_)
    rintro _ v ⟨-, hv⟩
    rw [hu] at hv
    have hclears : Clears recvMask 0 s.dev v.dev := ht.trans hv
    rw [meets_bind, meets_get, meets_bind, meets_dev_setreg16]
    rintro _ rfl
    refine ⟨trivial, (meets_ite _ _ _).mpr ⟨fun _ => ?_, fun _ => ?_⟩⟩
    · refine (meets_bind _ _).mpr ((gives_irqClrEn _).imp ?_)
      rintro _ w ⟨-, hw⟩
      exact (meets_onDev_modify _).mpr (hclears.trans hw)
    · exact (meets_onDev_modify _).mpr hclears
  refine (meets_bind _ _).mpr ((gives_of_uses (uses_setreg8 trivial)).imp fun _ u hu => ?_)
  refine (meets_ite _ _ _).mpr ⟨fun _ => ?_, fun _ => hend u hu⟩
  rw [meets_bind, meets_dev_setreg16]
  rintro _ rfl
  exact ⟨trivial, hend _ hu⟩

theorem gives_startSend (h : At x s.mem i m) (hpos : s.mem.txPos ≤ m.len.toNat) :
    Gives xiicStartSend (fun _ t =>
      t.mem = { s.mem with
        txPos := s.mem.txPos + fillCount s.mem m (s.dev.tfo s.dev.reads) } ∧
      Clears sendMask 1 s.dev t.dev) s := by
  have hfill : ∀ t : Sys StatusRegs, t.mem = s.mem → Clears intrTxErrorMask 0 s.dev t.dev →
      Gives (do
        xiicFillTxFifo
        xiicIrqClrEn sendMask) (fun _ u => u.mem = { s.mem with
          txPos := s.mem.txPos + fillCount s.mem m (s.dev.tfo s.dev.reads) } ∧
        Clears sendMask 1 s.dev u.dev) t := by
    intro t hmem ht
    refine (meets_bind _ _).mpr ((gives_fillTxFifo (i := i) (m := m) (hmem ▸ h.txMsg)
      (hmem ▸ h.get) (hmem ▸ hpos)).imp ?_)
    rintro _ u ⟨humem, hu⟩
    refine (gives_irqClrEn _).imp ?_
    rintro _ v ⟨hvmem, hv⟩
    refine ⟨?_, (ht.trans hu).trans hv⟩
    rw [hvmem, humem, hmem, ht.tfo, ht.reads]
    rfl
  refine (meets_bind _ _).mpr (meets_get.mpr ((meets_bind _ _).mpr ?_))
  refine (meets_dev_deref (i := i) (m := m) h.txMsg h.get).mpr ?_
  refine (meets_bind _ _).mpr ((gives_irqClr _).imp ?_)
  rintro _ t ⟨hmem, ht⟩
  refine (meets_ite _ _ _).mpr ⟨fun _ => ?_, fun _ => hfill t hmem ht⟩
  rw [meets_bind, meets_dev_setreg16]
  rintro _ rfl
  exact ⟨trivial, hfill _ hmem ht⟩

end Starts

section Loop

/-- Of the interrupts in `total`, at most those in `owed` have not been cleared yet. -/
def Owes (e : StatusRegs) (total owed : BitVec 32) (e' : StatusRegs) : Prop :=
  ∃ mask k, Clears mask k e e' ∧ mask ||| owed = total

theorem Clears.owes {mask owed : BitVec 32} {k : ℕ} {e e' : StatusRegs} (h : Clears mask k e e') :
    Owes e (mask ||| owed) owed e' :=
  ⟨mask, k, h, rfl⟩

theorem Owes.trans {e e' e'' : StatusRegs} {total owed owed' : BitVec 32}
    (h : Owes e total owed e') (h' : Owes e' owed owed' e'') : Owes e total owed' e'' := by
  obtain ⟨mask, k, hclears, rfl⟩ := h
  obtain ⟨mask', k', hclears', rfl⟩ := h'
  exact ⟨_, _, hclears.trans hclears', BitVec.or_assoc ..⟩

/-- What is owed has to be cleared. -/
theorem Owes.hits {e e' : StatusRegs} {total owed c : BitVec 32} (h : Owes e total owed e')
    (hc : owed &&& c ≠ 0) : total &&& c ≠ 0 := by
  obtain ⟨mask, k, -, rfl⟩ := h
  exact fun hzero => hc (or_and_eq_zero.mp hzero).2

/-- What the loop clears from its test on, with the message at the cursor not yet started, or
sent to its end. -/
def loopClears (tfo : ℕ → BitVec 8) (first : Bool) (space : ℤ) : List I2cMsg → ℕ → BitVec 32
  | [], _ => 0
  | m :: rest, n =>
    if 2 ≤ space ∧ (first = true ∨ rest ≠ []) then
      beginClears tfo (if first = true then m :: rest else rest) n
    else leftClears (m :: rest) (if first = true then 0 else m.len.toNat)

theorem loopClears_first (tfo : ℕ → BitVec 8) (q : List I2cMsg) (n : ℕ) :
    loopClears tfo true (txRoom (tfo n)) q (n + 1) = startClears tfo q n := by
  cases q with
  | nil => rfl
  | cons m rest => by_cases h : 2 ≤ txRoom (tfo n) <;> simp [loopClears, startClears, h]

/-- The state at the test of the loop. -/
def Looping (x : Transfer) (e : StatusRegs) (total : BitVec 32) (st : Bool × ℤ)
    (t : Sys StatusRegs) : Prop :=
  ∃ i m, Live x t.mem i m ∧ t.mem.rxPos = 0 ∧
    t.mem.txPos = (if st.1 = true then 0 else m.len.toNat) ∧
    Owes e total (loopClears t.dev.tfo st.1 st.2 (x.msgs.drop i) t.dev.reads) t.dev

/-- The state behind the loop: a read has been started, or the half-empty interrupt is left. -/
def Stopped (x : Transfer) (e : StatusRegs) (total : BitVec 32) (returned : Bool)
    (t : Sys StatusRegs) : Prop :=
  ∃ i m, Live x t.mem i m ∧
    (returned = true → Owes e total 0 t.dev ∧ total &&& intrRxFullMask ≠ 0) ∧
    (returned = false → Owes e total (leftClears (x.msgs.drop i) t.mem.txPos) t.dev)

variable {x : Transfer} {s : Sys StatusRegs} {i : ℕ} {m : I2cMsg}

/-- The messages from the cursor on. -/
theorem At.drop {d : XiicI2c} (h : At x d i m) : x.msgs.drop i = m :: x.msgs.drop (i + 1) := by
  obtain ⟨hlt, hget⟩ := List.getElem?_eq_some_iff.mp h.msg
  rw [List.drop_eq_getElem_cons hlt, hget]

theorem At.rest_ne_nil {d : XiicI2c} (h : At x d i m) : x.msgs.drop (i + 1) ≠ [] ↔ 1 < d.nmsgs := by
  have hn := h.nmsgs
  rw [ne_eq, List.drop_eq_nil_iff]
  omega

theorem At.leftClears_eq {d : XiicI2c} (h : At x d i m) (pos : ℕ) :
    leftClears (x.msgs.drop i) pos =
      if 1 < d.nmsgs ∨ pos < m.len.toNat then intrTxHalfMask else 0 := by
  rw [h.drop, leftClears]
  simp only [h.rest_ne_nil]

theorem gives_startCurrent (h : Live x s.mem i m) (hrx : s.mem.rxPos = 0) (htx : s.mem.txPos = 0) :
    Gives startCurrent (fun r t => match r with
      | .inl st => st.1 = false ∧
          Looping x s.dev (beginClears s.dev.tfo (x.msgs.drop i) s.dev.reads) st t
      | .inr returned =>
          Stopped x s.dev (beginClears s.dev.tfo (x.msgs.drop i) s.dev.reads) returned t) s := by
  rw [Gives, startCurrent, meets_bind, meets_get, meets_bind]
  refine (meets_dev_deref (s := s) (i := i) (m := m) h.txMsg h.toAt.get).mpr ?_
  rw [h.toAt.drop, beginClears]
  refine (meets_ite _ _ _).mpr ⟨fun hread => ?_, fun hwrite => ?_⟩
  · refine (meets_bind _ _).mpr ((gives_startRecv h.toAt).imp ?_)
    rintro _ t ⟨hmem, hclears⟩
    refine (meets_pure _).mpr ⟨i, m, ?_, fun _ => ?_, by simp⟩
    · rw [hmem]
      refine ⟨⟨h.msgs, h.txMsg, h.msg, h.nmsgs, ?_⟩, le_rfl, ?_, h.state⟩
      · intro j hj
        obtain rfl : i = j := Option.some.inj hj
        exact ⟨le_rfl, m, h.msg, hread⟩
      · intro j r _ _
        simp [hrx]
    · rw [if_pos hread]
      exact ⟨⟨_, _, hclears, BitVec.or_zero⟩, by decide⟩
  · rw [if_neg hwrite]
    refine (meets_bind _ _).mpr ((gives_startSend h.toAt h.txPos).imp ?_)
    rintro _ t ⟨hmem, hclears⟩
    have hcount : s.mem.txPos + fillCount s.mem m (s.dev.tfo s.dev.reads) =
        min m.len.toNat (u8 (txRoom (s.dev.tfo s.dev.reads))) := by
      rw [htx, Nat.zero_add, fillCount, htx, Nat.sub_zero]
      rfl
    rw [hcount] at hmem
    have hlive : Live x t.mem i m := hmem ▸ h.setTxPos (Nat.min_le_left _ _)
    have hpos : t.mem.txPos = min m.len.toNat (u8 (txRoom (s.dev.tfo s.dev.reads))) := by rw [hmem]
    refine (meets_bind _ _).mpr ((meets_dev_txSpace hlive.txMsg hlive.toAt.get).mpr ?_)
    rw [u32_sub (len_lt m) hlive.txPos, hpos]
    refine (meets_ite _ _ _).mpr ⟨fun hleft => (meets_pure _).mpr ?_, fun hall => ?_⟩
    · have hroom : u8 (txRoom (s.dev.tfo s.dev.reads)) < m.len.toNat := by omega
      refine ⟨i, m, hlive, by simp, fun _ => ?_⟩
      rw [if_pos hroom, hlive.toAt.drop, leftClears,
        if_pos (.inr (by rw [Config.noted_mem, hpos]; omega))]
      exact hclears.owes
    · have hroom : ¬u8 (txRoom (s.dev.tfo s.dev.reads)) < m.len.toNat := by omega
      refine (meets_bind _ _).mpr (meets_dev_txFifoSpace.mpr ?_)
      rintro _ _ ⟨rfl, rfl⟩
      refine ⟨trivial, (meets_pure _).mpr ⟨rfl, i, m, hlive, ?_, ?_, ?_⟩⟩
      · exact (congrArg XiicI2c.rxPos hmem).trans hrx
      · refine hpos.trans ?_
        simp only [Bool.false_eq_true, if_false]
        omega
      · have hnext : Clears 0 1 t.dev { t.dev with reads := t.dev.reads + 1 } := .none rfl rfl rfl
        have hloop : loopClears t.dev.tfo false (16 - (t.dev.tfo t.dev.reads).toNat - 1)
              (m :: x.msgs.drop (i + 1)) (t.dev.reads + 1) =
            if 2 ≤ txRoom (s.dev.tfo (s.dev.reads + 1)) ∧ x.msgs.drop (i + 1) ≠ [] then
              beginClears s.dev.tfo (x.msgs.drop (i + 1)) (s.dev.reads + 2)
            else leftClears (m :: x.msgs.drop (i + 1)) m.len.toNat := by
          rw [hclears.tfo, hclears.reads]
          simp [loopClears, txRoom]
        rw [if_neg hroom, ← hloop, hlive.toAt.drop]
        exact (hclears.trans hnext).owes

/-- One iteration: the loop starts a message, or ends where it was tested. -/
theorem gives_startXferBody {e : StatusRegs} {total : BitVec 32} {st : Bool × ℤ}
    (h : Looping x e total st s) : Gives (startXferBody st.1 st.2) (fun r t => match r with
      | .inl st' => 2 ≤ st.2 ∧ st'.1 = false ∧ Looping x e total st' t
      | .inr returned => Stopped x e total returned t ∧ (2 ≤ st.2 ∨ t = s)) s := by
  obtain ⟨i, m, hlive, hrx, htx, howes⟩ := h
  -- the message that is started owes what the loop owes
  have hcurrent : ∀ (t : Sys StatusRegs) (j : ℕ) (m' : I2cMsg), 2 ≤ st.2 → t.dev = s.dev →
      Live x t.mem j m' → t.mem.rxPos = 0 → t.mem.txPos = 0 →
      loopClears s.dev.tfo st.1 st.2 (x.msgs.drop i) s.dev.reads =
        beginClears s.dev.tfo (x.msgs.drop j) s.dev.reads →
      Gives startCurrent (fun r u => match r with
        | .inl st' => 2 ≤ st.2 ∧ st'.1 = false ∧ Looping x e total st' u
        | .inr returned => Stopped x e total returned u ∧ (2 ≤ st.2 ∨ u = s)) t := by
    intro t j m' hspace hdev hlive' hrx' htx' hloop
    rw [hloop, ← hdev] at howes
    refine (gives_startCurrent hlive' hrx' htx').imp ?_
    rintro (st' | returned) u hu
    · obtain ⟨hfirst, k, m'', hlive'', hrx'', htx'', hu⟩ := hu
      exact ⟨hspace, hfirst, k, m'', hlive'', hrx'', htx'', howes.trans hu⟩
    · obtain ⟨k, m'', hlive'', hread, hleft⟩ := hu
      refine ⟨⟨k, m'', hlive'', fun hr => ?_, fun hr => howes.trans (hleft hr)⟩, .inl hspace⟩
      obtain ⟨hnone, hfull⟩ := hread hr
      exact ⟨howes.trans hnone, howes.hits hfull⟩
  rw [Gives, startXferBody, meets_bind, meets_get]
  refine (meets_ite _ _ _).mpr ⟨fun hc => (meets_ite _ _ _).mpr ⟨fun hfirst => ?_, fun hfirst => ?_⟩,
    fun hc => ?_⟩
  · have hn : 1 < s.mem.nmsgs := by simpa [hfirst] using hc.2
    obtain ⟨m', h'⟩ := hlive.next hn
    rw [nextMsg, meets_bind, meets_onDev_modify, meets_bind, meets_onDev_modify]
    refine hcurrent _ (i + 1) m' hc.1 rfl h' hrx rfl ?_
    rw [hlive.toAt.drop, loopClears, if_pos ⟨hc.1, .inr (hlive.toAt.rest_ne_nil.mpr hn)⟩]
    simp [hfirst]
  · have htrue : st.1 = true := by simpa using hfirst
    refine hcurrent s i m hc.1 rfl hlive hrx (by simpa [htrue] using htx) ?_
    rw [hlive.toAt.drop, loopClears, if_pos ⟨hc.1, .inl htrue⟩]
    simp [htrue]
  · refine (meets_pure _).mpr ⟨⟨i, m, hlive, by simp, fun _ => ?_⟩, .inr rfl⟩
    have hstop : ¬(2 ≤ st.2 ∧ (st.1 = true ∨ x.msgs.drop (i + 1) ≠ [])) := by
      rintro ⟨hspace, hgo⟩
      exact hc ⟨hspace, hgo.imp_right hlive.toAt.rest_ne_nil.mp⟩
    rw [hlive.toAt.drop, loopClears, if_neg hstop, ← htx] at howes
    rwa [hlive.toAt.drop]

/-- The state behind a restart from message `i`. Without room in the FIFO only the positions
are reset. Otherwise, unless a read has been started or the half-empty interrupt cleared, the
last message has been sent. -/
def Restarted (x : Transfer) (i : ℕ) (s t : Sys StatusRegs) : Prop :=
  ∃ k j m', Live x t.mem j m' ∧
    Clears (startClears s.dev.tfo (x.msgs.drop i) s.dev.reads) k s.dev t.dev ∧
    (txRoom (s.dev.tfo s.dev.reads) < 2 → k = 1 ∧
      t.mem = { s.mem with rxPos := 0, txPos := 0, state := .start }) ∧
    (startClears s.dev.tfo (x.msgs.drop i) s.dev.reads &&&
      (intrRxFullMask ||| intrTxHalfMask) = 0 → t.mem.nmsgs = 1)

/-- The body behind the loop clears what is left, and neither reads the level nor touches the
cursor. -/
theorem gives_startXferEnd {e : StatusRegs} {total : BitVec 32} {returned : Bool}
    (h : Stopped x e total returned s) : Gives (if returned = false then do
        let d ← get
        let space ← if d.nmsgs > 1 then pure 1 else xiicTxSpace
        if space ≠ 0 then xiicIrqClrEn intrTxHalfMask
      else pure ()) (fun _ t => t.mem = s.mem ∧ t.dev.reads = s.dev.reads ∧
        (∃ k, Clears total k e t.dev) ∧
        (total &&& (intrRxFullMask ||| intrTxHalfMask) = 0 → s.mem.nmsgs = 1)) s := by
  obtain ⟨j, m', hlive, hread, hleft⟩ := h
  refine (meets_ite _ _ _).mpr ⟨fun hr => ?_, fun hr => (meets_pure _).mpr ?_⟩
  · obtain ⟨mask, k, hclears, hmask⟩ := hleft hr
    rw [hlive.toAt.leftClears_eq] at hmask
    have hhalf : ∀ t : Sys StatusRegs, t.mem = s.mem → t.dev = s.dev →
        (1 < s.mem.nmsgs ∨ s.mem.txPos < m'.len.toNat) →
        Gives (xiicIrqClrEn intrTxHalfMask) (fun _ t => t.mem = s.mem ∧ t.dev.reads = s.dev.reads ∧
          (∃ k, Clears total k e t.dev) ∧
          (total &&& (intrRxFullMask ||| intrTxHalfMask) = 0 → s.mem.nmsgs = 1)) t := by
      intro t hmem hdev hrest
      rw [if_pos hrest] at hmask
      refine (gives_irqClrEn _).imp ?_
      rintro _ v ⟨hvmem, hv⟩
      rw [hdev] at hv
      refine ⟨hvmem.trans hmem, hv.reads, ⟨_, hmask ▸ hclears.trans hv⟩, fun hzero => ?_⟩
      rw [← hmask] at hzero
      exact absurd (or_and_eq_zero.mp hzero).2 (by decide)
    refine (meets_bind _ _).mpr (meets_get.mpr ((meets_ite _ _ _).mpr ⟨fun hn => ?_, fun hn => ?_⟩))
    · exact (meets_bind _ _).mpr ((meets_pure _).mpr ((meets_ite _ _ _).mpr
        ⟨fun _ => hhalf s rfl rfl (.inl hn), fun hne => absurd Nat.one_ne_zero hne⟩))
    · refine (meets_bind _ _).mpr ((meets_dev_txSpace hlive.txMsg hlive.toAt.get).mpr ?_)
      rw [u32_sub (len_lt m') hlive.txPos]
      refine (meets_ite _ _ _).mpr ⟨fun hspace => ?_, fun hspace => (meets_pure _).mpr ?_⟩
      · exact hhalf _ rfl rfl (.inr (by omega))
      · rw [if_neg (by omega)] at hmask
        have hone := hlive.toAt.nmsgs_pos
        have hall := BitVec.or_zero.symm.trans hmask
        exact ⟨rfl, rfl, ⟨k, hall ▸ hclears⟩, fun _ => by omega⟩
  · obtain ⟨⟨mask, k, hclears, hmask⟩, hfull⟩ := hread (by simpa using hr)
    have hall := BitVec.or_zero.symm.trans hmask
    exact ⟨rfl, rfl, ⟨k, hall ▸ hclears⟩, fun hzero => absurd (and_or_eq_zero.mp hzero).1 hfull⟩

theorem gives_startXferUnlocked (h : At x s.mem i m) :
    Gives xiicStartXferUnlocked (fun _ t => Restarted x i s t) s := by
  rw [Gives, xiicStartXferUnlocked, meets_bind, meets_dev_txFifoSpace]
  rintro _ _ ⟨rfl, rfl⟩
  refine ⟨trivial, ?_⟩
  rw [meets_bind, meets_get, Config.withDev_mem, h.txMsg]
  refine (meets_bind _ _).mpr ((meets_onDev_note _).mpr ((meets_bind _ _).mpr
    ((meets_onDev_modify _).mpr ((meets_bind _ _).mpr ?_))))
  generalize hstart : Config.withMem _ _ = s₁
  have hmem₁ : s₁.mem = { s.mem with rxPos := 0, txPos := 0, state := .start } := by
    rw [← hstart]
    rfl
  have hclears₁ : Clears 0 1 s.dev s₁.dev := hstart ▸ .none rfl rfl rfl
  clear hstart
  refine (meets_iterate (Q := fun returned t => Stopped x s.dev
      (startClears s.dev.tfo (x.msgs.drop i) s.dev.reads) returned t ∧
      (2 ≤ txRoom (s.dev.tfo s.dev.reads) ∨ t = s₁))
    (fun st t => Looping x s.dev (startClears s.dev.tfo (x.msgs.drop i) s.dev.reads) st t ∧
      (st.1 = true → st.2 = txRoom (s.dev.tfo s.dev.reads) ∧ t = s₁) ∧
      (st.1 = false → 2 ≤ txRoom (s.dev.tfo s.dev.reads))) ⟨?_, ?_, by simp⟩ ?_).imp ?_
  · refine ⟨i, m, hmem₁ ▸ h.restart, by rw [hmem₁], by simp [hmem₁], 0, 1, hclears₁, ?_⟩
    rw [hclears₁.tfo, hclears₁.reads]
    exact BitVec.zero_or.trans (loopClears_first _ _ _)
  · exact fun _ => ⟨rfl, rfl⟩
  · rintro st t ⟨hloop, hfirst, hlater⟩
    refine (gives_startXferBody hloop).imp ?_
    have hroom : 2 ≤ st.2 → 2 ≤ txRoom (s.dev.tfo s.dev.reads) := by
      intro hspace
      cases hst : st.1 with
      | true => exact (hfirst hst).1 ▸ hspace
      | false => exact hlater hst
    rintro (st' | returned) u hu
    · obtain ⟨hspace, hst', hu⟩ := hu
      exact ⟨hu, by simp [hst'], fun _ => hroom hspace⟩
    · obtain ⟨hu, hspace | rfl⟩ := hu
      · exact ⟨hu, .inl (hroom hspace)⟩
      · refine ⟨hu, ?_⟩
        cases hst : st.1 with
        | true => exact .inr (hfirst hst).2
        | false => exact .inl (hlater hst)
  · rintro returned u ⟨hstopped, hroom⟩
    refine (gives_startXferEnd hstopped).imp ?_
    rintro _ t ⟨hmem, hreads, ⟨k, hclears⟩, hlast⟩
    obtain ⟨j, m', hlive, -⟩ := hstopped
    refine ⟨k, j, m', hmem ▸ hlive, hclears, fun hlt => ?_, hmem ▸ hlast⟩
    -- without room the loop has not been entered
    obtain rfl : u = s₁ := hroom.resolve_left (by omega)
    have hone := hclears₁.reads
    have hk := hclears.reads
    exact ⟨by omega, hmem.trans hmem₁⟩

end Loop

end PynqPrio.Iic
