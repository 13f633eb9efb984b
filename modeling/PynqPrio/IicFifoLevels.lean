import PynqPrio.IicDeviceRules
import PynqPrio.IicRunTracking

/-!
# The levels of the TX FIFO

The device keeps the number of words in its TX FIFO and the number that each write to the
data register found. It may remove words at any moment, and `TFO` reads one less than the
number of words, so that it cannot tell an empty FIFO from one with a single word. A
message is started with at most fourteen words in the FIFO, and the fill loop counts from
a reading that leaves room for what it writes.
-/
namespace PynqPrio.Iic
open Programs Programs.Driver Programs.Prog

structure TxLevels where
  level : ℕ
  found : List ℕ

/-- Any access may come after the device has removed words; nothing but the level is
fixed. A word written to a full FIFO would raise the level above its depth. -/
def txLevels : Machine Port Port.Res TxLevels
  | e, .getreg8 .tfo, v, e' =>
      e'.level ≤ e.level ∧ e'.found = e.found ∧ v = BitVec.ofNat 8 (e'.level - 1)
  | e, .setreg16 .dtr _, _, e' =>
      ∃ level ≤ e.level, e' = ⟨level + 1, e.found ++ [level]⟩
  | e, .setreg32 .resetr _, _, e' => e'.level = 0 ∧ e'.found = e.found
  | e, _, _, e' => e'.level ≤ e.level ∧ e'.found = e.found

/-- A word that is written finds room. -/
def FoundRoom (e e' : TxLevels) : Prop := ∀ level, e'.found = e.found ++ [level] → level < txFifoDepth

theorem foundRoom_of_eq {e e' : TxLevels} (h : e'.found = e.found) : FoundRoom e e' := by
  intro level hlevel
  simp [h] at hlevel

instance : Std.Refl FoundRoom := ⟨fun _ => foundRoom_of_eq rfl⟩

section Accesses

variable {e e' : TxLevels}

theorem level_of_tfo {v : BitVec 8} (h : txLevels e (.getreg8 .tfo) v e') :
    FoundRoom e e' ∧ e'.level ≤ e.level ∧ (e'.level ≤ 16 → v.toNat = e'.level - 1) := by
  obtain ⟨hle, hfound, rfl⟩ := h
  refine ⟨foundRoom_of_eq hfound, hle, fun h16 => ?_⟩
  rw [BitVec.toNat_ofNat]
  omega

theorem level_of_dtr {w : BitVec 16} (h : txLevels e (.setreg16 .dtr w) () e')
    (hlt : e.level < 16) : FoundRoom e e' ∧ e'.level ≤ e.level + 1 := by
  obtain ⟨level, hle, rfl⟩ := h
  refine ⟨fun level' hfound => ?_, by simpa using hle⟩
  obtain rfl : level = level' := by simpa using hfound
  exact lt_of_le_of_lt hle hlt

theorem level_of_noWord {k : ℕ} (p : Port) (e : TxLevels) (x : Port.Res p) (e' : TxLevels)
    (hp : p.NoWord) (hk : e.level ≤ k) (h : txLevels e p x e') : FoundRoom e e' ∧ e'.level ≤ k := by
  cases p with
  | getreg8 reg =>
    cases reg with
    | tfo => exact ⟨foundRoom_of_eq h.2.1, h.1.trans hk⟩
    | _ => exact ⟨foundRoom_of_eq h.2, h.1.trans hk⟩
  | setreg16 => exact hp.elim
  | setreg32 reg v =>
    cases reg with
    | resetr => exact ⟨foundRoom_of_eq h.2, h.1 ▸ Nat.zero_le k⟩
    | _ => exact ⟨foundRoom_of_eq h.2, h.1.trans hk⟩
  | _ => exact ⟨foundRoom_of_eq h.2, h.1.trans hk⟩

end Accesses

section Functions

variable {α : Type} {x : Transfer} {s : Sys TxLevels} {i : ℕ} {m : I2cMsg} {k : ℕ}

/-- Every word finds room, and at most `k` words are in the FIFO at the end. -/
abbrev Fits (k : ℕ) (p : Xiic α) (s : Sys TxLevels) : Prop :=
  Meets (withMemory txLevels) (onDev FoundRoom) p (fun _ t => t.dev.level ≤ k) s

theorem fits_of_uses {p : Xiic α} (hp : UsesPorts Port.NoWord p) (hk : s.dev.level ≤ k) :
    Fits k p s :=
  hp.meets (fun p e x e' h hI hdev => level_of_noWord p e x e' h hI hdev) hk

theorem uses_irqClrEn (mask : BitVec 32) : UsesPorts Port.NoWord (xiicIrqClrEn mask) :=
  .bind (uses_irqClr trivial (fun _ => trivial) mask) fun _ =>
    .bind (uses_getreg32 trivial) fun _ => uses_setreg32 trivial

theorem uses_irqDis (mask : BitVec 32) : UsesPorts Port.NoWord (xiicIrqDis mask) :=
  .bind (uses_getreg32 trivial) fun _ => uses_setreg32 trivial

/-- The fill loop writes what the FIFO had room for when `TFO` was read. -/
theorem fits_fillTxFifo (h : Live x s.mem i m) (hk : s.dev.level ≤ 16) :
    Fits 16 xiicFillTxFifo s := by
  refine meets_dev_fillTxFifo (J := fun v k t => t.dev.level + u8 (16 - v.toNat - 1) ≤ 16 + k ∧
    t.mem = { s.mem with txPos := s.mem.txPos + k }) h.txMsg h.toAt.get h.txPos ?_ ?_ ?_
  · intro v e he
    obtain ⟨hroom, hle, hv⟩ := level_of_tfo he
    refine ⟨hroom, ?_, rfl⟩
    rw [hv (hle.trans hk)]
    simp only [u8, Config.noted_dev, Config.withDev_dev]
    omega
  · intro v k t hlt hpost
    obtain ⟨hlevel, hmem⟩ := hpost
    simp only [fillCount] at hlt
    have hlive : Live x t.mem i m := hmem ▸ h.setTxPos (by omega)
    have hpos : t.mem.txPos = s.mem.txPos + k := by rw [hmem]
    refine (meets_dev_fillTxWord hlive.txMsg hlive.toAt.get (by omega)).mpr fun e he => ?_
    obtain ⟨hroom, hle⟩ := level_of_dtr he (by omega)
    refine ⟨hroom, ?_, ?_⟩
    · show e.level + _ ≤ _
      omega
    · simp only [hmem, Nat.add_assoc]
  · intro v t hpost
    obtain ⟨hlevel, -⟩ := hpost
    simp only [fillCount] at hlevel
    show t.dev.level ≤ 16
    omega

/-- A read is two words. -/
theorem fits_startRecv (h : At x s.mem i m) (hk : s.dev.level ≤ 14) : Fits 16 xiicStartRecv s := by
  have hclear := fun mask => uses_irqClrEn mask
  rw [Fits, xiicStartRecv, meets_bind, meets_onDev_modify, meets_bind, meets_get, meets_bind]
  refine (meets_dev_deref (i := i) (m := m) (by exact h.txMsg) (by exact h.get)).mpr ?_
  refine (meets_bind _ _).mpr ((fits_of_uses (k := 14) (hclear _) (by exact hk)).imp fun _ t ht => ?_)
  refine (meets_bind _ _).mpr ((fits_of_uses (k := 14) (uses_setreg8 trivial) ht).imp fun _ t ht => ?_)
  -- the address word, the count word, and what follows
  have hrest : ∀ t : Sys TxLevels, t.dev.level ≤ 15 → Fits 16 (do
      xiicIrqClrEn intrBnbMask
      let d ← get
      xiicSetreg16 .dtr (m.len ||| if d.nmsgs = 1 then txDynStopMask else 0)
      if d.nmsgs = 1 then xiicIrqClrEn intrBnbMask
      modify fun d => { d with txPos := m.len.toNat }) t := by
    intro t ht
    refine (meets_bind _ _).mpr ((fits_of_uses (k := 15) (hclear _) ht).imp fun _ t ht => ?_)
    rw [meets_bind, meets_get, meets_bind, meets_dev_setreg16]
    intro e he
    obtain ⟨hroom, hle⟩ := level_of_dtr he (by omega)
    refine ⟨hroom, fits_of_uses ?_ (show e.level ≤ 16 by omega)⟩
    exact .ite (.bind (hclear _) fun _ => uses_modify _) (uses_modify _)
  refine (meets_ite _ _ _).mpr ⟨fun _ => ?_, fun _ => hrest t (by omega)⟩
  rw [meets_bind, meets_dev_setreg16]
  intro e he
  obtain ⟨hroom, hle⟩ := level_of_dtr he (by omega)
  exact ⟨hroom, hrest _ (show e.level ≤ 15 by omega)⟩

/-- A write is its address word and what the fill loop finds room for. -/
theorem fits_startSend (h : Live x s.mem i m) (hk : s.dev.level ≤ 14) : Fits 16 xiicStartSend s := by
  have hfill : ∀ t : Sys TxLevels, t.mem = s.mem → t.dev.level ≤ 16 → Fits 16 (do
      xiicFillTxFifo
      xiicIrqClrEn (intrTxEmptyMask ||| intrTxErrorMask ||| intrBnbMask)) t := by
    intro t hmem ht
    exact (meets_bind _ _).mpr ((fits_fillTxFifo (hmem ▸ h) ht).imp fun _ u hu =>
      fits_of_uses (uses_irqClrEn _) hu)
  rw [Fits, xiicStartSend, meets_bind, meets_get, meets_bind]
  refine (meets_dev_deref (i := i) (m := m) h.txMsg h.toAt.get).mpr ?_
  have hcore : Meets anyDevice free (xiicIrqClr intrTxErrorMask) (fun _ t => t.mem = s.mem) s.core :=
    (meets_irqClr _).mpr rfl
  refine (meets_bind _ _).mpr ((meets_with_core (fits_of_uses (k := 14)
    (uses_irqClr trivial (fun _ => trivial) _) hk) hcore).imp ?_)
  intro _ t hpost
  obtain ⟨ht, hmem⟩ := hpost
  refine (meets_ite _ _ _).mpr ⟨fun _ => ?_, fun _ => hfill t hmem (by omega)⟩
  rw [meets_bind, meets_dev_setreg16]
  intro e he
  obtain ⟨hroom, hle⟩ := level_of_dtr he (by omega)
  exact ⟨hroom, hfill _ hmem (show e.level ≤ 16 by omega)⟩

/-- The state of the start loop: a reading of two or more means two words of room. -/
def Spacious (st : Bool × ℤ) (t : Sys TxLevels) : Prop :=
  t.dev.level ≤ 16 ∧ (2 ≤ st.2 → t.dev.level ≤ 14)

theorem spacious_txFifoSpace (hk : s.dev.level ≤ 16) (first : Bool) :
    Meets (withMemory txLevels) (onDev FoundRoom) xiicTxFifoSpace (fun space t =>
      t.core = s.core ∧ Spacious (first, space) t) s := by
  rw [meets_dev_txFifoSpace]
  intro v e he
  obtain ⟨hroom, hle, hv⟩ := level_of_tfo he
  refine ⟨hroom, rfl, hle.trans hk, fun h2 => ?_⟩
  rw [hv (hle.trans hk)] at h2
  show e.level ≤ 14
  simp only at h2
  omega

theorem fits_startCurrent (h : Starting x s.core) (hk : s.dev.level ≤ 14) :
    Meets (withMemory txLevels) (onDev FoundRoom) startCurrent (fun r t => match r with
      | .inl st => Spacious st t
      | .inr _ => t.dev.level ≤ 16) s := by
  obtain ⟨hin, -, i, m, hlive⟩ := h
  rw [startCurrent, meets_bind, meets_get, meets_bind]
  refine (meets_dev_deref (s := s) (i := i) (m := m) hlive.txMsg hlive.toAt.get).mpr ?_
  refine (meets_ite _ _ _).mpr ⟨fun _ => ?_, fun _ => ?_⟩
  · exact (meets_bind _ _).mpr ((fits_startRecv hlive.toAt hk).imp fun _ t ht =>
      (meets_pure _).mpr ht)
  · refine (meets_bind _ _).mpr ((meets_with_core (fits_startSend hlive hk)
      (startSend_cursor hlive hin)).imp ?_)
    intro _ t hpost
    obtain ⟨ht, _, p, hp, hmem⟩ := hpost
    have hlive' : Live x t.mem i m := (show t.mem = _ from hmem) ▸ hlive.setTxPos hp
    refine (meets_bind _ _).mpr ((meets_dev_txSpace hlive'.txMsg hlive'.toAt.get).mpr ?_)
    refine (meets_ite _ _ _).mpr ⟨fun _ => (meets_pure _).mpr ht, fun _ => ?_⟩
    refine (meets_bind _ _).mpr ((spacious_txFifoSpace (by exact ht) false).imp fun space u hu => ?_)
    exact (meets_pure _).mpr hu.2

theorem fits_startXferBody (h : Starting x s.core) {st : Bool × ℤ} (hs : Spacious st s) :
    Meets (withMemory txLevels) (onDev FoundRoom) (startXferBody st.1 st.2) (fun r t => match r with
      | .inl st => Spacious st t
      | .inr _ => t.dev.level ≤ 16) s := by
  rw [startXferBody, meets_bind, meets_get]
  refine (meets_ite _ _ _).mpr ⟨fun hc => (meets_ite _ _ _).mpr ⟨fun hfirst => ?_, fun _ => ?_⟩,
    fun _ => (meets_pure _).mpr hs.1⟩
  · obtain ⟨hin, h0, i, m, hlive⟩ := h
    have hn : 1 < s.mem.nmsgs := by simpa [hfirst] using hc.2
    obtain ⟨m', h'⟩ := hlive.next hn
    rw [nextMsg, meets_bind, meets_onDev_modify, meets_bind, meets_onDev_modify]
    exact fits_startCurrent ⟨hin, h0, i + 1, m', h'⟩ (hs.2 hc.1)
  · exact fits_startCurrent h (hs.2 hc.1)

theorem fits_startXferUnlocked (h : At x s.mem i m) (hin : InBounds x.msgs s.core)
    (hk : s.dev.level ≤ 16) : Fits 16 xiicStartXferUnlocked s := by
  refine (meets_bind _ _).mpr ((spacious_txFifoSpace hk true).imp fun space t hpost => ?_)
  obtain ⟨hcore, hspace⟩ := hpost
  have hmem : t.mem = s.mem := Config.mem_of_core hcore
  have ht : At x t.mem i m := hmem ▸ h
  rw [meets_bind, meets_get, ht.txMsg]
  refine (meets_bind _ _).mpr ((meets_onDev_note _).mpr ((meets_bind _ _).mpr
    ((meets_onDev_modify _).mpr ((meets_bind _ _).mpr ?_))))
  refine (meets_iterate (Q := fun _ t => t.dev.level ≤ 16)
    (fun st u => Starting x u.core ∧ Spacious st u) ⟨?_, by exact hspace⟩ ?_).imp ?_
  · have hin' : InBounds x.msgs t.core := by rwa [hcore]
    refine ⟨?_, rfl, i, m, ht.restart⟩
    exact (inBounds_noted (s := t.core) (.startXfer i t.mem.rxMsg space)).mpr ⟨hin', trivial⟩
  · intro st u hu
    refine (meets_with_core (fits_startXferBody hu.1 hu.2)
      (startXferBody_cursor hu.1 st.1 st.2)).imp ?_
    rintro (st' | returned) v ⟨hv, hcursor⟩
    · exact ⟨hcursor.1, hv⟩
    · exact hv
  · intro returned u hu
    refine fits_of_uses ?_ hu
    have hen : ∀ space : ℕ, UsesPorts Port.NoWord
        (if space ≠ 0 then xiicIrqClrEn intrTxHalfMask else pure ()) :=
      fun _ => .ite (uses_irqClrEn _) (.pure _)
    refine .ite (.bind .get fun d => .ite ?_ ?_) (.pure _)
    · exact .bind (.pure _) fun _ => hen _
    · exact .bind uses_txSpace fun _ => hen _

theorem uses_reinit : UsesPorts Port.NoWord xiicReinit :=
  .bind (.note _) fun _ => .bind (uses_setreg32 trivial) fun _ => .bind (uses_setreg8 trivial)
    fun _ => .bind (uses_setreg8 trivial) fun _ => .bind (uses_setreg8 trivial) fun _ =>
    .bind (uses_clearRxFifo trivial trivial) fun _ => .bind (uses_setreg32 trivial) fun _ =>
    uses_irqClrEn _

/-- The reset empties the FIFO, whatever it held before. -/
theorem fits_reinit : Fits 0 xiicReinit s := by
  rw [Fits, xiicReinit, meets_bind, meets_onDev_note, meets_bind, meets_dev_setreg32]
  intro e he
  obtain ⟨hzero, hfound⟩ := he
  refine ⟨foundRoom_of_eq hfound, fits_of_uses ?_ hzero.le⟩
  exact .bind (uses_setreg8 trivial) fun _ => .bind (uses_setreg8 trivial) fun _ =>
    .bind (uses_setreg8 trivial) fun _ => .bind (uses_clearRxFifo trivial trivial) fun _ =>
    .bind (uses_setreg32 trivial) fun _ => uses_irqClrEn _

end Functions

section Process

variable {x : Transfer} {s t : Sys TxLevels} {i : ℕ} {m : I2cMsg}

theorem uses_processError (pend : BitVec 32) : UsesPorts Port.NoWord (processError pend) := by
  have hwakeup : ∀ p : Option ℕ, UsesPorts Port.NoWord
      (if p.isSome then xiicWakeup .error else pure ()) :=
    fun _ => .ite (uses_wakeup _) (.pure _)
  refine .ite (.bind uses_reinit fun _ => .bind .get fun d => .ite ?_ ?_) (.pure _)
  · exact .bind (uses_wakeup _) fun _ => .bind .get fun d => hwakeup d.txMsg
  · exact .bind .get fun d => hwakeup d.txMsg

theorem uses_processBnb (out : Bool) (pend clr : BitVec 32) :
    UsesPorts Port.NoWord (processBnb out pend clr) := by
  have hend : ∀ space : ℕ, UsesPorts Port.NoWord (do
      xiicWakeup (if space = 0 then .done else .error)
      return (clr ||| intrBnbMask, false)) :=
    fun _ => .bind (uses_wakeup _) fun _ => .pure _
  refine .ite (.pure _) (.bind (uses_irqDis _) fun _ => .bind .get fun d => .ite (.pure _) ?_)
  exact .ite (.bind uses_txSpace fun _ => hend _) (.bind (.pure _) fun _ => hend _)

/-- Taking the next message and starting it. -/
theorem fits_next (h : Live x s.mem i m) (hin : InBounds x.msgs s.core) (hn : 1 < s.mem.nmsgs)
    (hk : s.dev.level ≤ 16) : Fits 16 (do
      nextMsg
      xiicStartXferUnlocked) s := by
  obtain ⟨m', hnext⟩ := h.toAt.next hn
  rw [Fits, nextMsg, meets_bind, meets_onDev_modify]
  exact fits_startXferUnlocked (by exact hnext) hin hk

theorem fits_processRx (h : Good x s.core) (hk : s.dev.level ≤ 16) (isr pend clr : BitVec 32) :
    Fits 16 (processRx isr pend clr) s := by
  refine (meets_ite _ _ _).mpr ⟨fun _ => (meets_pure _).mpr hk, fun _ => ?_⟩
  refine (meets_bind _ _).mpr (meets_get.mpr ((meets_ite _ _ _).mpr ⟨fun _ => ?_, fun hrx => ?_⟩))
  · exact fits_of_uses (.bind (uses_clearRxFifo trivial trivial) fun _ => .pure _) hk
  obtain ⟨hin, hidle | ⟨i, m, hlive⟩⟩ := h
  · exact absurd (show s.mem.rxMsg = none from hidle.rxMsg) (by simpa using hrx)
  obtain ⟨j, hj⟩ := Option.ne_none_iff_exists'.mp (by simpa using hrx)
  refine (meets_bind _ _).mpr ((meets_with_core (fits_of_uses (k := 16)
    (uses_readRx trivial trivial fun _ => trivial) hk) (readRx_live hlive hj hin)).imp ?_)
  intro _ t hpost
  obtain ⟨ht, htin, hlive', hj'⟩ := hpost
  obtain ⟨_, r, hr, _⟩ := hlive'.rx j hj'
  refine (meets_bind _ _).mpr ((meets_dev_rxSpace (s := t) hj' (hlive'.msgs ▸ hr)).mpr ?_)
  refine (meets_ite _ _ _).mpr ⟨fun _ => (meets_pure _).mpr ht, fun _ => ?_⟩
  have htin' : InBounds x.msgs (t.core.noted (.rxSpace r.len.toNat t.mem.rxPos)) :=
    (inBounds_noted _).mpr ⟨htin, hlive'.rxPos j r hj' hr⟩
  refine (meets_bind _ _).mpr ((meets_onDev_modify _).mpr ((meets_bind _ _).mpr (meets_get.mpr
    ((meets_ite _ _ _).mpr ⟨fun hn => ?_, fun _ => (meets_pure _).mpr ht⟩))))
  have hnext := fits_next (s := (t.noted (.rxSpace r.len.toNat t.mem.rxPos)).withMem
    { t.mem with rxMsg := none }) hlive'.clearRx htin' hn ht
  exact (meets_bind _ _).mpr (((meets_bind _ _).mp hnext).imp fun _ _ hu =>
    (meets_bind _ _).mpr (hu.imp fun _ _ hv => (meets_pure _).mpr hv))

theorem fits_processTxDone (h : Live x s.mem i m) (hin : InBounds x.msgs s.core)
    (hk : s.dev.level ≤ 16) : Fits 16 processTxDone s := by
  refine (meets_bind _ _).mpr ((meets_dev_txSpace h.txMsg h.toAt.get).mpr ?_)
  have hin' : InBounds x.msgs (s.core.noted (.txSpace m.len.toNat s.mem.txPos)) :=
    (inBounds_noted _).mpr ⟨hin, h.txPos⟩
  refine (meets_ite _ _ _).mpr ⟨fun _ => ?_, fun _ => (meets_pure _).mpr hk⟩
  refine (meets_bind _ _).mpr ((spacious_txFifoSpace (by exact hk) true).imp fun space t hpost => ?_)
  obtain ⟨hcore, ht, _⟩ := hpost
  have hmem : t.mem = s.mem := (Config.mem_of_core hcore).trans (Config.noted_mem s _)
  refine (meets_bind _ _).mpr (meets_get.mpr ?_)
  refine (meets_ite _ _ _).mpr ⟨fun _ => (meets_ite _ _ _).mpr ⟨fun hn => ?_, fun _ => ?_⟩,
    fun _ => (meets_ite _ _ _).mpr ⟨fun _ => ?_, fun _ => (meets_pure _).mpr ht⟩⟩
  · exact fits_next (hmem ▸ h) (hcore ▸ hin') hn ht
  · exact fits_of_uses (uses_irqDis _) ht
  · exact fits_of_uses (uses_irqDis _) ht

theorem fits_processTx (h : Good x s.core) (hk : s.dev.level ≤ 16) (out : Bool)
    (pend clr : BitVec 32) : Fits 16 (processTx out pend clr) s := by
  refine (meets_ite _ _ _).mpr ⟨fun _ => (meets_pure _).mpr hk, fun _ => ?_⟩
  refine (meets_bind _ _).mpr (meets_get.mpr ((meets_ite _ _ _).mpr
    ⟨fun _ => (meets_pure _).mpr hk, fun htx => ?_⟩))
  obtain ⟨hin, hidle | ⟨i, m, hlive⟩⟩ := h
  · exact absurd (show s.mem.txMsg = none from hidle.txMsg) (by simpa using htx)
  refine (meets_bind _ _).mpr ((meets_with_core (fits_fillTxFifo hlive hk)
    (fill_cursor hlive hin)).imp ?_)
  intro _ t hpost
  obtain ⟨ht, htin, p, _, hp, hmem⟩ := hpost
  have hlive' : Live x t.mem i m := (show t.mem = _ from hmem) ▸ hlive.setTxPos hp
  exact (meets_bind _ _).mpr ((fits_processTxDone hlive' htin ht).imp fun _ _ hu =>
    (meets_pure _).mpr hu)

/-- Every word that a run of the interrupt thread writes finds room. -/
theorem fits_process (h : Good x s.core) (hk : s.dev.level ≤ 16) : Fits 16 xiicProcess s := by
  refine (meets_bind _ _).mpr ((meets_with_core (fits_of_uses (k := 16) (uses_getreg32 trivial) hk)
    ((meets_getreg32 (G := free) _).mpr fun _ => h)).imp fun isr t ht => ?_)
  refine (meets_bind _ _).mpr ((meets_with_core (fits_of_uses (k := 16) (uses_getreg32 trivial) ht.1)
    ((meets_getreg32 (G := free) _).mpr fun _ => ht.2)).imp fun ier u hu => ?_)
  refine (meets_bind _ _).mpr ((meets_onDev_note _).mpr ?_)
  have hu' : Good x (u.noted (.pend (isr &&& ier))).core := Good.noted hu.2 trivial
  refine (meets_bind _ _).mpr ((meets_with_core (fits_of_uses (k := 16) (uses_processError _)
    (by exact hu.1)) (processError_good hu' _)).imp fun _ v hv => ?_)
  refine (meets_bind _ _).mpr ((meets_with_core (fits_processRx hv.2 hv.1 isr _ 0)
    (processRx_good hv.2 isr _ 0)).imp fun r w hw => ?_)
  refine (meets_bind _ _).mpr ((meets_with_core (fits_of_uses (k := 16)
    (uses_processBnb r.2 _ r.1) hw.1) (processBnb_good hw.2 r.2 _ r.1)).imp fun r' y hy => ?_)
  refine (meets_bind _ _).mpr ((fits_processTx hy.2 hy.1 r'.2 _ r'.1).imp fun clr z hz => ?_)
  exact fits_of_uses (uses_setreg32 trivial) hz

/-- The start of a transfer resets the device before it writes a word. -/
theorem fits_start (h : Idle s.mem) (hin : InBounds x.msgs s.core) :
    Fits 16 (startTransfer x.msgs x.bufs) s := by
  rw [Fits, startTransfer, assignTransfer, xiicStartXfer, meets_bind, meets_onDev_modify, meets_bind]
  have hcore : Meets anyDevice free xiicReinit
      (fun _ t => t = (s.withMem (assigned x s.mem)).core.noted .reinit)
      (s.withMem (assigned x s.mem)).core :=
    meets_reinit trivial rfl
  refine (meets_with_core fits_reinit hcore).imp ?_
  rintro _ t ⟨ht, hcore⟩
  have hmem : t.mem = assigned x s.mem := congrArg Config.mem hcore
  have htin : InBounds x.msgs t.core := hcore ▸ (inBounds_noted _).mpr ⟨hin, trivial⟩
  exact fits_startXferUnlocked (hmem ▸ h.at_assigned) htin (ht.trans (by omega))

end Process

section Runs

variable {x : Transfer} {s t : Sys TxLevels}

/-- Between two runs the FIFO holds at most as many words as it has room for. -/
theorem Reached.level (h : Reached txLevels x s) : s.dev.level ≤ 16 := by
  induction h with
  | @start s t idle trace run =>
    have hin : InBounds x.msgs s.core := by simp [InBounds, Config.core, trace]
    exact (fits_start idle hin).2 _ _ run
  | process h run ih => exact (fits_process h.good ih).2 _ _ run
  | timeout h run ih =>
    exact (fits_of_uses (p := timeoutCleanup) (uses_modify _) ih).2 _ _ run

/-- Whatever the messages are, whatever is pending and however the device removes words,
every write to the data register finds fewer than sixteen words in the FIFO. -/
theorem tx_fifo_never_overflows (x : Transfer) (s t : Sys TxLevels) (h : StepOf txLevels x s t)
    (level : ℕ) (hwrite : t.dev.found = s.dev.found ++ [level]) : level < txFifoDepth := by
  by_cases hne : s = t
  · simp [hne] at hwrite
  cases h with
  | @start r _ _ idle trace step =>
    have hin : InBounds x.msgs r.core := by simp [InBounds, Config.core, trace]
    exact (fits_start idle hin).1 _ _ step hne level hwrite
  | process h step => exact (fits_process h.good h.level).1 _ _ step hne level hwrite
  | timeout h step =>
    exact (fits_of_uses (p := timeoutCleanup) (uses_modify _) h.level).1 _ _ step hne level hwrite

/-- A device that removes no word. -/
def heldFifo (e : TxLevels) (_ : Unit) : (p : Port) → Option (Port.Res p × TxLevels)
  | .getreg8 .tfo => some (BitVec.ofNat 8 (e.level - 1), e)
  | .setreg16 .dtr _ => some ((), ⟨e.level + 1, e.found ++ [e.level]⟩)
  | .setreg32 .resetr _ => some ((), ⟨0, e.found⟩)
  | p => some (drained p, e)

theorem heldFifo_refines : (ofAnswer heldFifo).Refines txLevels id := by
  rintro e p v e' ⟨_, h⟩
  cases p with
  | getreg8 reg =>
    cases reg with
    | tfo =>
      obtain ⟨rfl, rfl⟩ := Prod.mk.inj (Option.some.inj h)
      exact ⟨le_rfl, rfl, rfl⟩
    | _ =>
      obtain ⟨rfl, rfl⟩ := Prod.mk.inj (Option.some.inj h)
      exact ⟨le_rfl, rfl⟩
  | setreg16 reg w =>
    cases reg with
    | dtr =>
      obtain ⟨_, rfl⟩ := Prod.mk.inj (Option.some.inj h)
      exact ⟨e.level, le_rfl, rfl⟩
    | _ =>
      obtain ⟨_, rfl⟩ := Prod.mk.inj (Option.some.inj h)
      exact ⟨le_rfl, rfl⟩
  | setreg32 reg w =>
    cases reg with
    | resetr =>
      obtain ⟨_, rfl⟩ := Prod.mk.inj (Option.some.inj h)
      exact ⟨rfl, rfl⟩
    | _ =>
      obtain ⟨_, rfl⟩ := Prod.mk.inj (Option.some.inj h)
      exact ⟨le_rfl, rfl⟩
  | _ =>
    obtain ⟨rfl, rfl⟩ := Prod.mk.inj (Option.some.inj h)
    exact ⟨le_rfl, rfl⟩

/-- The start of a long write fills the FIFO to the last place. -/
theorem tx_fifo_never_overflows_twentyBytes : ∃ s t, StepOf txLevels twentyBytes s t ∧
    t.dev.found = s.dev.found ++ [15] ∧ 15 < txFifoDepth := by
  have href := withMemory_refines (D := XiicI2c) (E := Event) heldFifo_refines
  have hdevice := onDevice_refines (D := XiicI2c) (E := Event) heldFifo fun _ _ => ()
  have hwatch : (watch (onDevice heldFifo fun _ _ => ())
      (fun s t => decide (t.dev.found = s.dev.found ++ [15])) 40
      (startTransfer twentyBytes.msgs twentyBytes.bufs) ⟨probed, [], ⟨0, []⟩⟩).1 = true := by
    decide +kernel
  obtain ⟨s, t, hsteps, hwrite⟩ := (watch_sound _ _).2 hwatch
  have hstep : StepOf txLevels twentyBytes s t :=
    .start ⟨rfl, rfl, rfl⟩ rfl (href.steps _ (hdevice.steps _ hsteps))
  have hfound := of_decide_eq_true hwrite
  exact ⟨s, t, hstep, hfound, tx_fifo_never_overflows twentyBytes s t hstep 15 hfound⟩

end Runs

end PynqPrio.Iic
