import PynqPrio.IicDriver
import Mathlib.Tactic.Ring

/-!
# Rules for the functions of the I2C driver on an arbitrary device

Accesses to the interrupt registers do not touch the driver's state, so on `anyDevice`
they disappear from a judgement. The two loops over a message buffer get one rule each,
in terms of an invariant of the number of bytes moved so far.
-/
namespace PynqPrio.Iic
open Programs Programs.Driver Programs.Prog

variable {α : Type} {G : Sys Unit → Sys Unit → Prop} {s : Sys Unit}

section Accessors

@[simp] theorem meets_getreg8 (reg : Reg) {Q : BitVec 8 → Sys Unit → Prop} :
    Meets anyDevice G (xiicGetreg8 reg) Q s ↔ ∀ v, Q v s :=
  meets_any_port (P := Port) (R := Port.Res) (.getreg8 reg)

@[simp] theorem meets_getreg32 (reg : Reg) {Q : BitVec 32 → Sys Unit → Prop} :
    Meets anyDevice G (xiicGetreg32 reg) Q s ↔ ∀ v, Q v s :=
  meets_any_port (P := Port) (R := Port.Res) (.getreg32 reg)

@[simp] theorem meets_setreg8 (reg : Reg) (v : BitVec 8) {Q : Unit → Sys Unit → Prop} :
    Meets anyDevice G (xiicSetreg8 reg v) Q s ↔ Q () s :=
  (meets_any_port (P := Port) (R := Port.Res) (.setreg8 reg v)).trans
    ⟨fun h => h (), fun h _ => h⟩

@[simp] theorem meets_setreg32 (reg : Reg) (v : BitVec 32) {Q : Unit → Sys Unit → Prop} :
    Meets anyDevice G (xiicSetreg32 reg v) Q s ↔ Q () s :=
  (meets_any_port (P := Port) (R := Port.Res) (.setreg32 reg v)).trans
    ⟨fun h => h (), fun h _ => h⟩

@[simp] theorem meets_setreg16 (reg : Reg) (v : BitVec 16) {Q : Unit → Sys Unit → Prop} :
    Meets anyDevice G (xiicSetreg16 reg v) Q s ↔
      G s (s.noted (.dtr v)) ∧ Q () (s.noted (.dtr v)) := by
  rw [xiicSetreg16, meets_bind]
  refine (meets_any_port (P := Port) (R := Port.Res) (.setreg16 reg v)).trans ?_
  exact ⟨fun h => (meets_any_note _).mp (h ()), fun h _ => (meets_any_note _).mpr h⟩

@[simp] theorem meets_irqDis (mask : BitVec 32) {Q : Unit → Sys Unit → Prop} :
    Meets anyDevice G (xiicIrqDis mask) Q s ↔ Q () s := by simp [xiicIrqDis]

@[simp] theorem meets_irqEn (mask : BitVec 32) {Q : Unit → Sys Unit → Prop} :
    Meets anyDevice G (xiicIrqEn mask) Q s ↔ Q () s := by simp [xiicIrqEn]

@[simp] theorem meets_irqClr (mask : BitVec 32) {Q : Unit → Sys Unit → Prop} :
    Meets anyDevice G (xiicIrqClr mask) Q s ↔ Q () s := by simp [xiicIrqClr]

@[simp] theorem meets_irqClrEn (mask : BitVec 32) {Q : Unit → Sys Unit → Prop} :
    Meets anyDevice G (xiicIrqClrEn mask) Q s ↔ Q () s := by simp [xiicIrqClrEn]

theorem meets_clearRxFifo {Q : Unit → Sys Unit → Prop} (h : Q () s) :
    Meets anyDevice G xiicClearRxFifo Q s := by
  refine meets_iterate (fun _ t => t = s) rfl ?_
  intro _ t ht
  subst ht
  simp only [meets_bind, meets_getreg8, meets_ite, meets_pure, implies_true, and_true]
  intro v _
  exact h

theorem meets_reinit {Q : Unit → Sys Unit → Prop} (hG : G s (s.noted .reinit))
    (h : Q () (s.noted .reinit)) : Meets anyDevice G xiicReinit Q s := by
  simp only [xiicReinit, meets_bind, meets_any_note, meets_setreg32, meets_setreg8]
  refine ⟨hG, meets_clearRxFifo ?_⟩
  simpa only [meets_irqClrEn] using h

/-- `TFO` may read anything, so the space is at most 15 and may be negative. -/
@[simp] theorem meets_txFifoSpace {Q : ℤ → Sys Unit → Prop} :
    Meets anyDevice G xiicTxFifoSpace Q s ↔ ∀ v : BitVec 8, Q (16 - v.toNat - 1) s := by
  simp [xiicTxFifoSpace, txFifoDepth]

end Accessors

section Pointers

variable {i : ℕ} {m : I2cMsg}

theorem meets_deref {p : Option ℕ} (hp : p = some i) (hm : s.mem.msgs[i]? = some m)
    {Q : I2cMsg → Sys Unit → Prop} : Meets anyDevice G (deref p) Q s ↔ Q m s := by
  simp [deref, hp, hm]

theorem meets_txSpace (hp : s.mem.txMsg = some i) (hm : s.mem.msgs[i]? = some m)
    {Q : ℕ → Sys Unit → Prop} :
    Meets anyDevice G xiicTxSpace Q s ↔
      G s (s.noted (.txSpace m.len.toNat s.mem.txPos)) ∧
        Q (u32 (m.len.toNat - s.mem.txPos))
          (s.noted (.txSpace m.len.toNat s.mem.txPos)) := by
  simp [xiicTxSpace, meets_deref hp hm]

theorem meets_rxSpace (hp : s.mem.rxMsg = some i) (hm : s.mem.msgs[i]? = some m)
    {Q : ℤ → Sys Unit → Prop} :
    Meets anyDevice G xiicRxSpace Q s ↔
      G s (s.noted (.rxSpace m.len.toNat s.mem.rxPos)) ∧
        Q (m.len.toNat - s.mem.rxPos)
          (s.noted (.rxSpace m.len.toNat s.mem.rxPos)) := by
  simp [xiicRxSpace, meets_deref hp hm]

/-- Loading a byte through the transmit pointer and advancing the position. -/
theorem meets_loadTxByte (hp : s.mem.txMsg = some i) {Q : BitVec 8 → Sys Unit → Prop} :
    Meets anyDevice G loadTxByte Q s ↔
      G s (s.noted (.load i s.mem.txPos)) ∧
      (s.noted (.load i s.mem.txPos) ≠ (s.noted (.load i s.mem.txPos)).withMem
          { s.mem with txPos := u32 (s.mem.txPos + 1) } →
        G (s.noted (.load i s.mem.txPos)) ((s.noted (.load i s.mem.txPos)).withMem
          { s.mem with txPos := u32 (s.mem.txPos + 1) })) ∧
      Q (s.mem.bufs i s.mem.txPos) ((s.noted (.load i s.mem.txPos)).withMem
        { s.mem with txPos := u32 (s.mem.txPos + 1) }) := by
  obtain ⟨⟨txMsg, txPos, nmsgs, state, rxMsg, rxPos, endianness, msgs, bufs⟩, trace, dev⟩ := s
  obtain rfl : txMsg = some i := hp
  simp only [loadTxByte, meets_bind, meets_any_get, meets_any_note, meets_any_set, meets_pure]

/-- Storing the next byte of the RX FIFO through the receive pointer. -/
theorem meets_storeRxByte (hp : s.mem.rxMsg = some i) {Q : Unit → Sys Unit → Prop} :
    Meets anyDevice G storeRxByte Q s ↔ ∀ byte,
      G s (s.noted (.store i s.mem.rxPos byte)) ∧
      (s.noted (.store i s.mem.rxPos byte) ≠ (s.noted (.store i s.mem.rxPos byte)).withMem
          { s.mem with
            bufs := fun j p => if j = i ∧ (p : ℤ) = s.mem.rxPos then byte else s.mem.bufs j p
            rxPos := s.mem.rxPos + 1 } →
        G (s.noted (.store i s.mem.rxPos byte)) ((s.noted (.store i s.mem.rxPos byte)).withMem
          { s.mem with
            bufs := fun j p => if j = i ∧ (p : ℤ) = s.mem.rxPos then byte else s.mem.bufs j p
            rxPos := s.mem.rxPos + 1 })) ∧
      Q () ((s.noted (.store i s.mem.rxPos byte)).withMem
        { s.mem with
          bufs := fun j p => if j = i ∧ (p : ℤ) = s.mem.rxPos then byte else s.mem.bufs j p
          rxPos := s.mem.rxPos + 1 }) := by
  obtain ⟨⟨txMsg, txPos, nmsgs, state, rxMsg, rxPos, endianness, msgs, bufs⟩, trace, dev⟩ := s
  obtain rfl : rxMsg = some i := hp
  simp only [storeRxByte, meets_bind, meets_getreg8, meets_any_get, meets_any_note, meets_any_set]

end Pointers

theorem len_lt (m : I2cMsg) : m.len.toNat < 65536 := m.len.isLt

/-- Below the length of the message the macro does not wrap. -/
theorem u32_sub {len pos : ℕ} (hlen : len < 65536) (hpos : pos ≤ len) :
    u32 ((len : ℤ) - pos) = len - pos := by
  simp only [u32]
  omega

section FillLoop

variable {i : ℕ} {m : I2cMsg}

/-- The fill loop, from a cursor inside its message: the invariant is indexed by the
number of words written, and the loop writes at most the rest of the message. -/
theorem meets_fillTxFifo {J : ℕ → Sys Unit → Prop} {Q : Unit → Sys Unit → Prop}
    (hp : s.mem.txMsg = some i) (hm : s.mem.msgs[i]? = some m)
    (hpos : s.mem.txPos ≤ m.len.toNat)
    (hG : G s (s.noted (.txSpace m.len.toNat s.mem.txPos)))
    (h0 : J 0 (s.noted (.txSpace m.len.toNat s.mem.txPos)))
    (hstep : ∀ k t, k < m.len.toNat - s.mem.txPos → J k t →
      Meets anyDevice G fillTxWord (fun _ => J (k + 1)) t)
    (hend : ∀ k t, k ≤ m.len.toNat - s.mem.txPos → J k t → Q () t) :
    Meets anyDevice G xiicFillTxFifo Q s := by
  have hlen := len_lt m
  simp only [xiicFillTxFifo, meets_bind, meets_txFifoSpace, meets_txSpace hp hm,
    u32_sub hlen hpos]
  intro v
  refine ⟨hG, ?_⟩
  generalize hN : m.len.toNat - s.mem.txPos = N at *
  have hs : s32 N = N := by
    simp only [s32]
    omega
  rw [hs]
  generalize hF : u8 (16 - v.toNat - 1) = F
  -- `len` counts down from the smaller of the two spaces
  obtain ⟨n, hn, hnN⟩ : ∃ n : ℕ, (if (N : ℤ) > F then (F : ℤ) else N) = n ∧ n ≤ N := by
    by_cases h : (N : ℤ) > F
    · exact ⟨F, by simp [h], by omega⟩
    · exact ⟨N, by simp [h], le_rfl⟩
  rw [hn]
  refine meets_iterate (fun len t => ∃ k : ℕ, len = (n : ℤ) - k ∧ k ≤ n ∧ J k t)
    ⟨0, by simp, by omega, h0⟩ ?_
  rintro len t ⟨k, rfl, hk, hJ⟩
  simp only [meets_bind, meets_ite, meets_pure]
  constructor
  · intro _
    exact hend k t (by omega) hJ
  · intro hne
    refine (hstep k t (by omega) hJ).imp ?_
    intro _ t' hJ'
    exact ⟨k + 1, by push_cast; ring, by omega, hJ'⟩

end FillLoop

section ReadLoop

variable {j : ℕ} {r : I2cMsg}

/-- The read loop, from a position inside the buffer: the invariant is indexed by the
number of bytes stored; the loop stores at most the rest of the buffer. -/
theorem meets_readRx {J : ℕ → Sys Unit → Prop} {Q : Unit → Sys Unit → Prop}
    (hp : s.mem.rxMsg = some j) (hm : s.mem.msgs[j]? = some r)
    (hpos : 0 ≤ s.mem.rxPos ∧ s.mem.rxPos ≤ r.len.toNat)
    (hG : G s (s.noted (.rxSpace r.len.toNat s.mem.rxPos)))
    (h0 : J 0 (s.noted (.rxSpace r.len.toNat s.mem.rxPos)))
    (hstep : ∀ (k : ℕ) t, s.mem.rxPos + k < r.len.toNat → J k t →
      Meets anyDevice G storeRxByte (fun _ => J (k + 1)) t)
    (hend : ∀ (k : ℕ) t, s.mem.rxPos + k ≤ r.len.toNat → J k t →
      Meets anyDevice G xiicRxSpace (fun _ => Q ()) t) :
    Meets anyDevice G xiicReadRx Q s := by
  have hlen := len_lt r
  simp only [xiicReadRx, meets_bind, meets_getreg8, meets_rxSpace hp hm]
  intro v
  refine ⟨hG, ?_⟩
  generalize s.mem.rxPos = pos at *
  obtain ⟨n, hn, hnle⟩ : ∃ n : ℕ,
      (if (u8 ((v.toNat : ℤ) + 1) : ℤ) > r.len.toNat - pos then u8 (r.len.toNat - pos)
        else u8 (v.toNat + 1)) = n ∧ pos + n ≤ r.len.toNat := by
    refine ⟨_, rfl, ?_⟩
    split
    · simp only [u8] at *
      omega
    · omega
  rw [hn]
  refine meets_iterate (fun k t => k ≤ n ∧ J k t) ⟨by omega, h0⟩ ?_
  rintro k t ⟨hk, hJ⟩
  simp only [meets_bind, meets_ite, meets_pure]
  constructor
  · intro hlt
    refine (hstep k t (by omega) hJ).imp ?_
    intro _ t' hJ'
    exact ⟨by omega, hJ'⟩
  · intro _
    refine (hend k t (by omega) hJ).imp ?_
    intro x t' hQ
    simpa using hQ

end ReadLoop

end PynqPrio.Iic
