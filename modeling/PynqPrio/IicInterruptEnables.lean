import PynqPrio.IicDeviceRules

/-!
# The interrupts that an unfinished transfer waits for

The device keeps its interrupt enable register and the number of words in its TX FIFO; its
other registers read anything. The driver enables and disables interrupts in six places.
Between two runs of the interrupt thread the interrupts that can advance the transfer are
enabled: `Armed` is the invariant, kept by every branch of a run.
-/
namespace PynqPrio.Iic
open Programs Programs.Driver Programs.Prog

structure TxEnables where
  level : ℕ
  iier : BitVec 32

/-- The device only removes words from its TX FIFO; the reset empties it and clears `IIER`,
which otherwise holds what was written last. -/
def txEnables : Machine Port Port.Res TxEnables
  | e, .getreg8 .tfo, v, e' =>
      e'.level ≤ e.level ∧ e'.iier = e.iier ∧ v = BitVec.ofNat 8 (e'.level - 1)
  | e, .setreg16 .dtr _, _, e' => e'.level ≤ e.level + 1 ∧ e'.iier = e.iier
  | e, .getreg32 .iier, v, e' => e'.level ≤ e.level ∧ e'.iier = e.iier ∧ v = e.iier
  | e, .setreg32 .iier v, _, e' => e'.level ≤ e.level ∧ e'.iier = v
  | _, .setreg32 .resetr _, _, e' => e'.level = 0 ∧ e'.iier = 0
  | e, _, _, e' => e'.level ≤ e.level ∧ e'.iier = e.iier

theorem or_and_eq_zero {a b c : BitVec 32} :
    (a ||| b) &&& c = 0 ↔ a &&& c = 0 ∧ b &&& c = 0 := by
  rw [BitVec.and_or_distrib_right]
  exact BitVec.or_eq_zero_iff

theorem and_or_eq_zero {a b c : BitVec 32} :
    a &&& (b ||| c) = 0 ↔ a &&& b = 0 ∧ a &&& c = 0 := by
  rw [BitVec.and_or_distrib_left]
  exact BitVec.or_eq_zero_iff

def Enables (iier mask : BitVec 32) : Prop := iier &&& mask ≠ 0

instance (iier mask : BitVec 32) : Decidable (Enables iier mask) :=
  inferInstanceAs (Decidable (iier &&& mask ≠ 0))

@[simp] theorem enables_or (a b mask : BitVec 32) :
    Enables (a ||| b) mask ↔ Enables a mask ∨ Enables b mask := by
  rw [Enables, ne_eq, or_and_eq_zero, not_and_or]
  exact Iff.rfl

/-- Disabling other interrupts does not disable this one. -/
theorem Enables.andNot {a mask b : BitVec 32} (h : Enables a mask) (hb : b &&& mask = 0) :
    Enables (a &&& ~~~b) mask := by
  have hmask : a &&& ~~~b &&& mask = a &&& mask := by
    ext k hk
    have hbit : (b[k] && mask[k]) = false := by
      rw [← BitVec.getElem_and, hb]
      simp
    cases hm : mask[k] with
    | false => simp [hm]
    | true => simp only [hm, Bool.and_true] at hbit ⊢; simp [hbit]
  rwa [Enables, hmask]

/-- The interrupts that stay enabled as long as there is a transfer. -/
structure Base (d : XiicI2c) (iier : BitVec 32) : Prop where
  arbLost : Enables iier intrArbLostMask
  txError : Enables iier intrTxErrorMask
  bnb : Enables iier intrBnbMask
  rxFull : d.rxMsg ≠ none → Enables iier intrRxFullMask

/-- With unsent bytes in the message, or no read outstanding and messages behind it, an
interrupt of the TX FIFO is enabled too. -/
structure Armed (d : XiicI2c) (m : I2cMsg) (iier : BitVec 32) : Prop extends Base d iier where
  tx : d.txPos < m.len.toNat ∨ (d.rxMsg = none ∧ 1 < d.nmsgs) →
    Enables iier (intrTxEmptyMask ||| intrTxHalfMask)

theorem Base.or {d : XiicI2c} {iier : BitVec 32} (h : Base d iier) (mask : BitVec 32) :
    Base d (iier ||| mask) := by
  have hkeep : ∀ {m}, Enables iier m → Enables (iier ||| mask) m := fun h =>
    (enables_or _ _ _).mpr (.inl h)
  exact ⟨hkeep h.arbLost, hkeep h.txError, hkeep h.bnb, fun hrx => hkeep (h.rxFull hrx)⟩

section Accesses

variable {s : Sys TxEnables}

abbrev Leads {α : Type} (p : Xiic α) (Q : α → Sys TxEnables → Prop) (s : Sys TxEnables) : Prop :=
  Meets (withMemory txEnables) (onDev anyAccess) p Q s

/-- Only `IIER` is touched, and it becomes `iier`. -/
def Only (iier : BitVec 32) (s t : Sys TxEnables) : Prop :=
  t.core = s.core ∧ t.dev.level ≤ s.dev.level ∧ t.dev.iier = iier

theorem leads_irqClr (mask : BitVec 32) : Leads (xiicIrqClr mask) (fun _ => Only s.dev.iier s) s := by
  simp only [xiicIrqClr, meets_bind, meets_dev_getreg32, meets_dev_setreg32]
  intro isr e he
  obtain ⟨hle, hiier⟩ := he
  refine ⟨trivial, fun e' he' => ⟨trivial, rfl, ?_, ?_⟩⟩
  · exact he'.1.trans hle
  · exact he'.2.trans hiier

theorem leads_irqDis (mask : BitVec 32) :
    Leads (xiicIrqDis mask) (fun _ => Only (s.dev.iier &&& ~~~mask) s) s := by
  simp only [xiicIrqDis, meets_bind, meets_dev_getreg32, meets_dev_setreg32]
  rintro _ e ⟨hle, hiier, rfl⟩
  refine ⟨trivial, fun e' he' => ⟨trivial, rfl, ?_, ?_⟩⟩
  · exact he'.1.trans hle
  · exact he'.2

theorem leads_irqClrEn (mask : BitVec 32) :
    Leads (xiicIrqClrEn mask) (fun _ => Only (s.dev.iier ||| mask) s) s := by
  refine (meets_bind _ _).mpr ((leads_irqClr mask).imp ?_)
  rintro _ t ⟨hcore, hle, hiier⟩
  simp only [xiicIrqEn, meets_bind, meets_dev_getreg32, meets_dev_setreg32]
  rintro _ e ⟨hle', hiier', rfl⟩
  refine ⟨trivial, fun e' he' => ⟨trivial, hcore, ?_, ?_⟩⟩
  · exact he'.1.trans (hle'.trans hle)
  · exact he'.2.trans (by rw [hiier])

/-- The port leaves `IIER` as it is. -/
def Port.KeepsIier : Port → Prop
  | .setreg32 .iier _ | .setreg32 .resetr _ => False
  | _ => True

theorem iier_of_keeps {v : BitVec 32} (p : Port) (e : TxEnables) (x : Port.Res p) (e' : TxEnables)
    (hp : p.KeepsIier) (hv : e.iier = v) (h : txEnables e p x e') :
    anyAccess e e' ∧ e'.iier = v := by
  refine ⟨trivial, ?_⟩
  cases p with
  | getreg8 reg =>
    cases reg with
    | tfo => exact h.2.1.trans hv
    | _ => exact h.2.trans hv
  | getreg32 reg =>
    cases reg with
    | iier => exact h.2.1.trans hv
    | _ => exact h.2.trans hv
  | setreg16 reg w =>
    cases reg with
    | _ => exact h.2.trans hv
  | setreg32 reg w =>
    cases reg with
    | iier => exact hp.elim
    | resetr => exact hp.elim
    | _ => exact h.2.trans hv
  | setreg8 reg w => exact h.2.trans hv

theorem level_le_of_noWord (p : Port) (e : TxEnables) (x : Port.Res p) (e' : TxEnables)
    (hp : p.NoWord) (h : txEnables e p x e') : e'.level ≤ e.level := by
  cases p with
  | getreg8 reg =>
    cases reg with
    | _ => exact h.1
  | getreg32 reg =>
    cases reg with
    | _ => exact h.1
  | setreg16 => exact hp.elim
  | setreg32 reg w =>
    cases reg with
    | resetr => exact h.1 ▸ Nat.zero_le _
    | _ => exact h.1
  | setreg8 reg w => exact h.1

theorem leads_of_uses {α : Type} {p : Xiic α} (hp : UsesPorts Port.KeepsIier p) :
    Leads p (fun _ t => t.dev.iier = s.dev.iier) s :=
  hp.meets (I := fun e => e.iier = s.dev.iier)
    (fun p e x e' h hI hdev => iier_of_keeps p e x e' h hI hdev) rfl

/-- After the reset only ARB_LOST is enabled, and the TX FIFO is empty. -/
theorem leads_reinit : Leads xiicReinit (fun _ t => t.dev.level = 0 ∧
    t.dev.iier = intrArbLostMask) s := by
  have hkeep : ∀ {α : Type} {p : Xiic α}, UsesPorts (fun p => p.KeepsIier ∧ p.NoWord) p →
      ∀ {t : Sys TxEnables}, t.dev.level = 0 ∧ t.dev.iier = 0 →
        Leads p (fun _ u => u.dev.level = 0 ∧ u.dev.iier = 0) t := by
    intro α p hp t ht
    refine hp.meets (I := fun e : TxEnables => e.level = 0 ∧ e.iier = 0) (fun p e x e' hq hI hdev => ?_) ht
    obtain ⟨hiier, hword⟩ := hq
    refine ⟨trivial, ?_, (iier_of_keeps p e x e' hiier hI.2 hdev).2⟩
    exact Nat.le_zero.mp (hI.1 ▸ level_le_of_noWord p e x e' hword hdev)
  refine (meets_bind _ _).mpr ((meets_onDev_note _).mpr ((meets_bind _ _).mpr
    ((meets_dev_setreg32 _ _).mpr fun e he => ⟨trivial, ?_⟩)))
  refine (meets_bind _ _).mpr ((hkeep (uses_setreg8 ⟨trivial, trivial⟩) (by exact he)).imp fun _ t ht => ?_)
  refine (meets_bind _ _).mpr ((hkeep (uses_setreg8 ⟨trivial, trivial⟩) ht).imp fun _ t ht => ?_)
  refine (meets_bind _ _).mpr ((hkeep (uses_setreg8 ⟨trivial, trivial⟩) ht).imp fun _ t ht => ?_)
  refine (meets_bind _ _).mpr ((hkeep (uses_clearRxFifo ⟨trivial, trivial⟩ ⟨trivial, trivial⟩)
    ht).imp fun _ t ht => ?_)
  refine (meets_bind _ _).mpr ((hkeep (@uses_setreg32 _ .dgier _ ⟨trivial, trivial⟩) ht).imp fun _ t ht => ?_)
  refine (leads_irqClrEn intrArbLostMask).imp ?_
  rintro _ u ⟨-, hle, hiier⟩
  rw [ht.2, show (0 : BitVec 32) ||| intrArbLostMask = intrArbLostMask from rfl] at hiier
  exact ⟨Nat.le_zero.mp (ht.1 ▸ hle), hiier⟩

end Accesses

section Starts

variable {x : Transfer} {s : Sys TxEnables} {i : ℕ} {m : I2cMsg}

/-- The interrupts of the mask are enabled, and no other is disabled. -/
def Adds (mask : BitVec 32) (e e' : TxEnables) : Prop :=
  ∀ m, Enables e.iier m ∨ Enables mask m → Enables e'.iier m

theorem adds_of_or {mask : BitVec 32} {e e' : TxEnables} (h : e'.iier = e.iier ||| mask) :
    Adds mask e e' := by
  intro m hm
  rw [h]
  exact (enables_or _ _ _).mpr hm

/-- Enabling more adds no less. -/
theorem Adds.or {mask mask' : BitVec 32} {e e' e'' : TxEnables} (h : Adds mask e e')
    (h' : e''.iier = e'.iier ||| mask') : Adds mask e e'' :=
  fun m hm => adds_of_or h' m (.inl (h m hm))

def recvMask : BitVec 32 := intrRxFullMask ||| intrTxErrorMask ||| intrBnbMask

def sendMask : BitVec 32 := intrTxEmptyMask ||| intrTxErrorMask ||| intrBnbMask

theorem leads_startRecv (h : At x s.mem i m) :
    Leads xiicStartRecv (fun _ t => Adds recvMask s.dev t.dev) s := by
  rw [Leads, xiicStartRecv, meets_bind, meets_onDev_modify, meets_bind, meets_get, meets_bind]
  refine (meets_dev_deref (i := i) (m := m) (by exact h.txMsg) (by exact h.get)).mpr ?_
  refine (meets_bind _ _).mpr ((leads_irqClrEn _).imp ?_)
  rintro _ t ⟨-, -, ht⟩
  have hend : ∀ u : Sys TxEnables, u.dev.iier = t.dev.iier → Leads (do
      xiicIrqClrEn intrBnbMask
      let d ← get
      xiicSetreg16 .dtr (m.len ||| if d.nmsgs = 1 then txDynStopMask else 0)
      if d.nmsgs = 1 then xiicIrqClrEn intrBnbMask
      modify fun d => { d with txPos := m.len.toNat })
      (fun _ v => Adds recvMask s.dev v.dev) u := by
    intro u hu
    refine (meets_bind _ _).mpr ((leads_irqClrEn _).imp ?_)
    rintro _ v ⟨-, -, hv⟩
    rw [meets_bind, meets_get, meets_bind, meets_dev_setreg16]
    intro e he
    have hadds : Adds recvMask s.dev e := by
      apply adds_of_or
      rw [he.2, hv, hu, ht, BitVec.or_assoc]
      rfl
    refine ⟨trivial, (meets_ite _ _ _).mpr ⟨fun _ => ?_, fun _ => ?_⟩⟩
    · refine (meets_bind _ _).mpr ((leads_irqClrEn _).imp ?_)
      rintro _ w ⟨-, -, hw⟩
      exact (meets_onDev_modify _).mpr (hadds.or hw)
    · exact (meets_onDev_modify _).mpr hadds
  refine (meets_bind _ _).mpr ((leads_of_uses (uses_setreg8 trivial)).imp fun _ u hu => ?_)
  refine (meets_ite _ _ _).mpr ⟨fun _ => ?_, fun _ => hend u hu⟩
  rw [meets_bind, meets_dev_setreg16]
  intro e he
  exact ⟨trivial, hend _ (he.2.trans hu)⟩

theorem leads_startSend (h : At x s.mem i m) :
    Leads xiicStartSend (fun _ t => Adds sendMask s.dev t.dev) s := by
  have hfill : ∀ t : Sys TxEnables, t.dev.iier = s.dev.iier → Leads (do
      xiicFillTxFifo
      xiicIrqClrEn sendMask) (fun _ u => Adds sendMask s.dev u.dev) t := by
    intro t ht
    refine (meets_bind _ _).mpr ((leads_of_uses
      (uses_fillTxFifo trivial fun _ => trivial)).imp fun _ u hu => ?_)
    refine (leads_irqClrEn _).imp ?_
    rintro _ v ⟨-, -, hv⟩
    exact adds_of_or (by rw [hv, hu, ht])
  rw [Leads, xiicStartSend, meets_bind, meets_get, meets_bind]
  refine (meets_dev_deref (i := i) (m := m) h.txMsg h.get).mpr ?_
  refine (meets_bind _ _).mpr ((leads_irqClr _).imp ?_)
  rintro _ t ⟨-, -, ht⟩
  refine (meets_ite _ _ _).mpr ⟨fun _ => ?_, fun _ => hfill t ht⟩
  rw [meets_bind, meets_dev_setreg16]
  intro e he
  exact ⟨trivial, hfill _ (he.2.trans ht)⟩

end Starts

section Loop

variable {x : Transfer} {s : Sys TxEnables} {i : ℕ} {m : I2cMsg}

/-- What is enabled whenever the start loop is entered. -/
structure Entered (d : XiicI2c) (iier : BitVec 32) : Prop where
  arbLost : Enables iier intrArbLostMask
  rxFull : d.rxMsg ≠ none → Enables iier intrRxFullMask

theorem Base.entered {d : XiicI2c} {iier : BitVec 32} (h : Base d iier) : Entered d iier :=
  ⟨h.arbLost, h.rxFull⟩

/-- The state of the start loop: the first message is started, or another was before. -/
def Loops (st : Bool × ℤ) (t : Sys TxEnables) : Prop :=
  Entered t.mem t.dev.iier ∧ ((st.1 = true ∧ 2 ≤ st.2) ∨ Base t.mem t.dev.iier)

theorem leads_startCurrent (h : Starting x s.core) (hs : Entered s.mem s.dev.iier) :
    Leads startCurrent (fun r t => match r with
      | .inl _ => Base t.mem t.dev.iier
      | .inr returned => Base t.mem t.dev.iier ∧
          (returned = true → ∃ i m, Live x t.mem i m ∧ Armed t.mem m t.dev.iier)) s := by
  obtain ⟨hin, h0, i, m, hlive⟩ := h
  rw [Leads, startCurrent, meets_bind, meets_get, meets_bind]
  refine (meets_dev_deref (s := s) (i := i) (m := m) hlive.txMsg hlive.toAt.get).mpr ?_
  refine (meets_ite _ _ _).mpr ⟨fun hread => ?_, fun _ => ?_⟩
  · refine (meets_bind _ _).mpr ((meets_with_core (leads_startRecv hlive.toAt)
      ((startRecv_mem hlive.toAt).and (startRecv_cursor hlive.toAt hread h0 hlive.state hin))).imp ?_)
    rintro _ t ⟨hadds, hmem, _, hlive'⟩
    have hbase : Base t.mem t.dev.iier :=
      ⟨hadds _ (.inl hs.arbLost), hadds _ (.inr (by decide)), hadds _ (.inr (by decide)),
        fun _ => hadds _ (.inr (by decide))⟩
    refine (meets_pure _).mpr ⟨hbase, fun _ => ⟨i, m, hlive', hbase, ?_⟩⟩
    replace hmem : t.mem = _ := hmem
    simp [hmem]
  · refine (meets_bind _ _).mpr ((meets_with_core (leads_startSend hlive.toAt)
      (startSend_cursor hlive hin)).imp ?_)
    rintro _ t ⟨hadds, _, p, hp, hmem⟩
    replace hmem : t.mem = { s.mem with txPos := p } := hmem
    have hbase : Base t.mem t.dev.iier := by
      refine ⟨hadds _ (.inl hs.arbLost), hadds _ (.inr (by decide)), hadds _ (.inr (by decide)), ?_⟩
      intro hrx
      rw [hmem] at hrx
      exact hadds _ (.inl (hs.rxFull hrx))
    have hlive' : Live x t.mem i m := hmem ▸ hlive.setTxPos hp
    refine (meets_bind _ _).mpr ((meets_dev_txSpace hlive'.txMsg hlive'.toAt.get).mpr ?_)
    refine (meets_ite _ _ _).mpr ⟨fun _ => ?_, fun _ => ?_⟩
    · exact (meets_pure _).mpr ⟨hbase, by simp⟩
    · refine (meets_bind _ _).mpr ((meets_dev_txFifoSpace).mpr fun v e he => ⟨trivial, ?_⟩)
      refine (meets_pure _).mpr ?_
      simpa [he.2.1] using hbase

theorem leads_startXferBody (h : Starting x s.core) {st : Bool × ℤ} (hs : Loops st s) :
    Leads (startXferBody st.1 st.2) (fun r t => match r with
      | .inl st => Loops st t
      | .inr returned => Base t.mem t.dev.iier ∧
          (returned = true → ∃ i m, Live x t.mem i m ∧ Armed t.mem m t.dev.iier)) s := by
  obtain ⟨hentered, hloops⟩ := hs
  have hcurrent : ∀ t : Sys TxEnables, Starting x t.core → Entered t.mem t.dev.iier →
      Leads startCurrent (fun r t => match r with
        | .inl st => Loops st t
        | .inr returned => Base t.mem t.dev.iier ∧
            (returned = true → ∃ i m, Live x t.mem i m ∧ Armed t.mem m t.dev.iier)) t := by
    intro t ht het
    refine (leads_startCurrent ht het).imp ?_
    rintro (st' | returned) u hu
    · exact ⟨hu.entered, .inr hu⟩
    · exact hu
  rw [Leads, startXferBody, meets_bind, meets_get]
  refine (meets_ite _ _ _).mpr ⟨fun hc => (meets_ite _ _ _).mpr ⟨fun hfirst => ?_, fun _ => ?_⟩,
    fun hc => ?_⟩
  · obtain ⟨hin, h0, i, m, hlive⟩ := h
    have hn : 1 < s.mem.nmsgs := by simpa [hfirst] using hc.2
    obtain ⟨m', h'⟩ := hlive.next hn
    rw [nextMsg, meets_bind, meets_onDev_modify, meets_bind, meets_onDev_modify]
    exact hcurrent _ ⟨hin, h0, i + 1, m', h'⟩ ⟨hentered.arbLost, hentered.rxFull⟩
  · exact hcurrent s h hentered
  · refine (meets_pure _).mpr ⟨?_, by simp⟩
    rcases hloops with ⟨hfirst, hspace⟩ | hbase
    · exact absurd ⟨hspace, .inl hfirst⟩ hc
    · exact hbase

/-- A message is started after the reset, or with the interrupts of an earlier one enabled. -/
theorem leads_startXferUnlocked (h : At x s.mem i m) (hin : InBounds x.msgs s.core)
    (hentered : Entered s.mem s.dev.iier) (hs : s.dev.level = 0 ∨ Base s.mem s.dev.iier) :
    Leads xiicStartXferUnlocked
      (fun _ t => ∃ i m, Live x t.mem i m ∧ Armed t.mem m t.dev.iier) s := by
  rw [Leads, xiicStartXferUnlocked, meets_bind, meets_dev_txFifoSpace]
  rintro v e ⟨hlevel, hiier, hv⟩
  refine ⟨trivial, ?_⟩
  rw [meets_bind, meets_get, Config.withDev_mem, h.txMsg]
  refine (meets_bind _ _).mpr ((meets_onDev_note _).mpr ((meets_bind _ _).mpr
    ((meets_onDev_modify _).mpr ((meets_bind _ _).mpr ?_))))
  refine (meets_iterate (Q := fun returned t => (Base t.mem t.dev.iier ∧
    (returned = true → ∃ i m, Live x t.mem i m ∧ Armed t.mem m t.dev.iier)) ∧
    InBounds x.msgs t.core ∧ ∃ i m, Live x t.mem i m)
    (fun st u => Starting x u.core ∧ Loops st u) ⟨?_, ?_⟩ ?_).imp ?_
  · exact ⟨(inBounds_noted (s := s.core) _).mpr ⟨hin, trivial⟩, rfl, i, m, h.restart⟩
  · have hmem : Entered s.mem e.iier := hiier ▸ hentered
    refine ⟨⟨hmem.arbLost, hmem.rxFull⟩, hs.imp (fun hzero => ⟨rfl, ?_⟩) fun hbase => ?_⟩
    · rw [hzero] at hlevel
      simp [hv, Nat.le_zero.mp hlevel]
    · have hbase' : Base s.mem e.iier := hiier ▸ hbase
      exact ⟨hbase'.arbLost, hbase'.txError, hbase'.bnb, hbase'.rxFull⟩
  · intro st u hu
    refine (meets_with_core (leads_startXferBody hu.1 hu.2)
      (startXferBody_cursor hu.1 st.1 st.2)).imp ?_
    rintro (st' | returned) w ⟨hw, hcursor⟩
    · exact ⟨hcursor.1, hw⟩
    · exact ⟨hw, hcursor⟩
  · rintro returned u ⟨⟨hbase, harmed⟩, hu, j, m', hlive⟩
    refine (meets_ite _ _ _).mpr ⟨fun _ => ?_, fun hr => (meets_pure _).mpr (harmed (by simpa using hr))⟩
    -- messages remain, or bytes of this one: the half-empty interrupt is enabled too
    have hhalf : ∀ t : Sys TxEnables, t.mem = u.mem → t.dev.iier = u.dev.iier →
        Leads (xiicIrqClrEn intrTxHalfMask)
          (fun _ t => ∃ i m, Live x t.mem i m ∧ Armed t.mem m t.dev.iier) t := by
      intro t hmem hiier
      refine (leads_irqClrEn _).imp ?_
      rintro _ w ⟨hwcore, -, hwiier⟩
      have hwmem : w.mem = u.mem := (Config.mem_of_core hwcore).trans hmem
      rw [hiier] at hwiier
      rw [hwmem, hwiier]
      exact ⟨j, m', hlive, hbase.or _, fun _ => (enables_or _ _ _).mpr (.inr (by decide))⟩
    refine (meets_bind _ _).mpr (meets_get.mpr ((meets_ite _ _ _).mpr ⟨fun _ => ?_, fun hn => ?_⟩))
    · refine (meets_bind _ _).mpr ((meets_pure _).mpr ((meets_ite _ _ _).mpr
        ⟨fun _ => hhalf u rfl rfl, fun hne => absurd Nat.one_ne_zero hne⟩))
    · refine (meets_bind _ _).mpr ((meets_dev_txSpace hlive.txMsg hlive.toAt.get).mpr ?_)
      refine (meets_ite _ _ _).mpr ⟨fun _ => hhalf _ rfl rfl, fun hspace => (meets_pure _).mpr ?_⟩
      refine ⟨j, m', hlive, hbase, fun htx => ?_⟩
      rw [not_not, u32_sub (len_lt m') hlive.txPos] at hspace
      rcases htx with hlt | ⟨-, hgt⟩
      · have hlt' : u.mem.txPos < m'.len.toNat := hlt
        omega
      · exact absurd hgt hn

end Loop

section Process

variable {x : Transfer} {s : Sys TxEnables} {i : ℕ} {m : I2cMsg}

/-- Between two branches of a run: no transfer, or one with its interrupts enabled. -/
def Waiting (x : Transfer) (t : Sys TxEnables) : Prop :=
  InBounds x.msgs t.core ∧ (Idle t.mem ∨ ∃ i m, Live x t.mem i m ∧ Armed t.mem m t.dev.iier)

theorem Waiting.good (h : Waiting x s) : Good x s.core :=
  ⟨h.1, h.2.imp_right fun ⟨i, m, hlive, _⟩ => ⟨i, m, hlive⟩⟩

/-- The end of a transfer leaves the driver idle. -/
theorem leads_wakeup (code : XilinxI2cState) : Leads (xiicWakeup code) (fun _ t => Idle t.mem) s := by
  rw [Leads, xiicWakeup, meets_bind, meets_onDev_modify, meets_onDev_note]
  exact ⟨rfl, rfl, rfl⟩

/-- Lost arbitration and errors end the transfer. -/
theorem leads_processError (h : Good x s.core) (pend : BitVec 32) :
    Leads (processError pend) (fun _ t => t = s ∨ Idle t.mem) s := by
  refine (meets_ite _ _ _).mpr ⟨fun _ => ?_, fun _ => (meets_pure _).mpr (.inl rfl)⟩
  have hcore : Meets anyDevice free xiicReinit (fun _ t => t.mem = s.mem) s.core :=
    meets_reinit trivial rfl
  refine (meets_bind _ _).mpr ((meets_with_core leads_reinit hcore).imp ?_)
  rintro _ t ⟨-, hmem⟩
  replace hmem : t.mem = s.mem := hmem
  rw [meets_bind, meets_get, hmem]
  refine (meets_ite _ _ _).mpr ⟨fun _ => ?_, fun hrx => ?_⟩
  · refine (meets_bind _ _).mpr ((leads_wakeup _).imp fun _ u hu => ?_)
    rw [meets_bind, meets_get, hu.txMsg]
    exact (meets_pure _).mpr (.inr hu)
  · rw [meets_bind, meets_get, hmem]
    refine (meets_ite _ _ _).mpr ⟨fun _ => (leads_wakeup _).imp fun _ _ hu => .inr hu, fun htx => ?_⟩
    obtain ⟨-, hidle | ⟨i, m, hlive⟩⟩ := h
    · exact (meets_pure _).mpr (.inr (by rw [hmem]; exact hidle))
    · have hsome : s.mem.txMsg = some i := hlive.txMsg
      exact absurd (by rw [hsome]; rfl) htx

/-- Taking the next message and starting it. -/
theorem leads_next (h : Live x s.mem i m) (hin : InBounds x.msgs s.core) (hn : 1 < s.mem.nmsgs)
    (hbase : Base s.mem s.dev.iier) : Leads (do
      nextMsg
      xiicStartXferUnlocked) (fun _ t => Waiting x t) s := by
  obtain ⟨m', hnext⟩ := h.toAt.next hn
  rw [Leads, nextMsg, meets_bind, meets_onDev_modify]
  have hstart := startXferUnlocked_cursor (s := s.core.withMem _) hnext hin
  refine (meets_with_core (leads_startXferUnlocked (s := s.withMem _) hnext hin
    ⟨hbase.arbLost, hbase.rxFull⟩ (.inr ⟨hbase.arbLost, hbase.txError, hbase.bnb, hbase.rxFull⟩))
    hstart).imp ?_
  rintro _ t ⟨harmed, hin', _⟩
  exact ⟨hin', .inr harmed⟩

theorem leads_processRx (h : Waiting x s) (isr pend clr : BitVec 32) :
    Leads (processRx isr pend clr) (fun _ t => Waiting x t) s := by
  refine (meets_ite _ _ _).mpr ⟨fun _ => (meets_pure _).mpr h, fun _ => ?_⟩
  refine (meets_bind _ _).mpr (meets_get.mpr ((meets_ite _ _ _).mpr ⟨fun _ => ?_, fun hrx => ?_⟩))
  · have hcore : Meets anyDevice free xiicClearRxFifo (fun _ t => t = s.core) s.core :=
      meets_clearRxFifo rfl
    refine (meets_bind _ _).mpr ((meets_with_core (leads_of_uses
      (uses_clearRxFifo trivial trivial)) hcore).imp ?_)
    rintro _ t ⟨hiier, hcore⟩
    refine (meets_pure _).mpr ?_
    rw [Waiting, hcore, Config.mem_of_core hcore, hiier]
    exact h
  obtain ⟨hin, hidle | ⟨i, m, hlive, harmed⟩⟩ := h
  · exact absurd (show s.mem.rxMsg = none from hidle.rxMsg) (by simpa using hrx)
  obtain ⟨j, hj⟩ := Option.ne_none_iff_exists'.mp (by simpa using hrx)
  obtain ⟨_, r, hr, _⟩ := hlive.rx j hj
  refine (meets_bind _ _).mpr ((meets_with_core (leads_of_uses
    (uses_readRx trivial trivial fun _ => trivial))
    ((readRx_cursor hlive hj hr hin).and (readRx_live hlive hj hin))).imp ?_)
  rintro _ t ⟨hiier, ⟨htin, p, hp0, hp, hmem⟩, -, hlive', hj'⟩
  replace hmem : t.mem = { s.mem with rxPos := p, bufs := t.mem.bufs } := hmem
  -- only the receive position and the buffers have changed
  have harmed' : Armed t.mem m t.dev.iier := by
    rw [hmem, hiier]
    exact ⟨⟨harmed.arbLost, harmed.txError, harmed.bnb, harmed.rxFull⟩, harmed.tx⟩
  have htin' : InBounds x.msgs (t.core.noted (.rxSpace r.len.toNat t.mem.rxPos)) :=
    (inBounds_noted _).mpr ⟨htin, hlive'.rxPos j r hj' hr⟩
  refine (meets_bind _ _).mpr ((meets_dev_rxSpace (s := t) hj' (hlive'.msgs ▸ hr)).mpr ?_)
  refine (meets_ite _ _ _).mpr ⟨fun _ => (meets_pure _).mpr ?_, fun _ => ?_⟩
  · exact ⟨htin', .inr ⟨i, m, hlive', harmed'⟩⟩
  have hbase : Base { t.mem with rxMsg := none } t.dev.iier :=
    ⟨harmed'.arbLost, harmed'.txError, harmed'.bnb, fun hne => absurd rfl hne⟩
  refine (meets_bind _ _).mpr ((meets_onDev_modify _).mpr ((meets_bind _ _).mpr (meets_get.mpr
    ((meets_ite _ _ _).mpr ⟨fun hn => ?_, fun hn => (meets_pure _).mpr ?_⟩))))
  · have hnext := leads_next (s := (t.noted (.rxSpace r.len.toNat t.mem.rxPos)).withMem
      { t.mem with rxMsg := none }) hlive'.clearRx htin' hn hbase
    exact (meets_bind _ _).mpr (((meets_bind _ _).mp hnext).imp fun _ _ hu =>
      (meets_bind _ _).mpr (hu.imp fun _ _ hv => (meets_pure _).mpr hv))
  · refine ⟨htin', .inr ⟨i, m, hlive'.clearRx, hbase, fun htx => harmed'.tx (.inl ?_)⟩⟩
    rcases htx with hlt | ⟨-, hgt⟩
    · exact hlt
    · exact absurd hgt hn

theorem leads_processBnb (h : Waiting x s) (out : Bool) (pend clr : BitVec 32) :
    Leads (processBnb out pend clr) (fun _ t => Waiting x t) s := by
  have hcore := processBnb_good h.good out pend clr
  refine (meets_with_core (Q := fun _ t => t = s ∨ Idle t.mem) ?_ hcore).imp ?_
  · refine (meets_ite _ _ _).mpr ⟨fun _ => (meets_pure _).mpr (.inl rfl), fun _ => ?_⟩
    refine (meets_bind _ _).mpr ((leads_irqDis _).imp ?_)
    rintro _ t ⟨htcore, -, -⟩
    have hmem : t.mem = s.mem := Config.mem_of_core htcore
    rw [meets_bind, meets_get, hmem]
    obtain ⟨hin, hidle | ⟨i, m, hlive, _⟩⟩ := h
    · rw [hidle.txMsg]
      exact (meets_pure _).mpr (.inr (by rw [hmem]; exact hidle))
    rw [hlive.txMsg]
    have hend : ∀ (space : ℕ) (u : Sys TxEnables), Leads (do
        xiicWakeup (if space = 0 then .done else .error)
        return (clr ||| intrBnbMask, false)) (fun _ u => u = s ∨ Idle u.mem) u :=
      fun space u => (meets_bind _ _).mpr ((leads_wakeup _).imp fun _ _ hu =>
        (meets_pure _).mpr (.inr hu))
    have hlive' : Live x t.mem i m := hmem ▸ hlive
    refine (meets_ite _ _ _).mpr ⟨fun hnone => absurd hnone (by simp), fun _ => ?_⟩
    refine (meets_ite _ _ _).mpr ⟨fun _ => ?_, fun _ => ?_⟩
    · refine (meets_bind _ _).mpr ((meets_dev_txSpace hlive'.txMsg hlive'.toAt.get).mpr ?_)
      exact hend _ _
    · exact (meets_bind _ _).mpr ((meets_pure _).mpr (hend _ _))
  · rintro _ t ⟨rfl | hidle, hgood⟩
    · exact h
    · exact ⟨hgood.1, .inl hidle⟩

theorem leads_processTxDone (h : Live x s.mem i m) (hin : InBounds x.msgs s.core)
    (harmed : Armed s.mem m s.dev.iier) : Leads processTxDone (fun _ t => Waiting x t) s := by
  have hin' : InBounds x.msgs (s.core.noted (.txSpace m.len.toNat s.mem.txPos)) :=
    (inBounds_noted _).mpr ⟨hin, h.txPos⟩
  refine (meets_bind _ _).mpr ((meets_dev_txSpace h.txMsg h.toAt.get).mpr ?_)
  refine (meets_ite _ _ _).mpr ⟨fun hspace => ?_, fun _ => (meets_pure _).mpr ?_⟩
  · have hfull : ¬s.mem.txPos < m.len.toNat := by
      rw [u32_sub (len_lt m) h.txPos] at hspace
      omega
    refine (meets_bind _ _).mpr (meets_dev_txFifoSpace.mpr fun v e he => ⟨trivial, ?_⟩)
    obtain ⟨-, hiier, -⟩ := he
    replace hiier : e.iier = s.dev.iier := hiier
    -- the half-empty interrupt goes only when nothing is left to send
    have hdis : ¬1 < s.mem.nmsgs → Leads (xiicIrqDis intrTxHalfMask) (fun _ t => Waiting x t)
        ((s.noted (.txSpace m.len.toNat s.mem.txPos)).withDev e) := by
      intro hn
      refine (leads_irqDis _).imp ?_
      rintro _ t ⟨hcore, -, ht⟩
      have hmem : t.mem = s.mem := congrArg (fun c => c.mem) hcore
      refine ⟨hcore ▸ hin', .inr ⟨i, m, hmem ▸ h, ?_⟩⟩
      rw [hmem, ht, Config.withDev_dev, hiier]
      refine ⟨⟨harmed.arbLost.andNot (by decide), harmed.txError.andNot (by decide),
        harmed.bnb.andNot (by decide), fun hrx => (harmed.rxFull hrx).andNot (by decide)⟩, ?_⟩
      rintro (hlt | ⟨-, hgt⟩)
      · exact absurd hlt hfull
      · exact absurd hgt hn
    refine (meets_bind _ _).mpr (meets_get.mpr ((meets_ite _ _ _).mpr
      ⟨fun _ => (meets_ite _ _ _).mpr ⟨fun hn => ?_, fun hn => hdis hn⟩,
        fun _ => (meets_ite _ _ _).mpr ⟨fun hn => hdis ?_, fun _ => (meets_pure _).mpr ?_⟩⟩))
    · refine leads_next (by exact h) (by exact hin') hn ?_
      rw [Config.withDev_dev, hiier]
      exact harmed.toBase
    · have hone : s.mem.nmsgs = 1 := hn
      omega
    · refine ⟨hin', .inr ⟨i, m, h, ?_⟩⟩
      rw [Config.withDev_dev, hiier]
      exact harmed
  · exact ⟨hin', .inr ⟨i, m, h, harmed⟩⟩

theorem leads_processTx (h : Waiting x s) (out : Bool) (pend clr : BitVec 32) :
    Leads (processTx out pend clr) (fun _ t => Waiting x t) s := by
  refine (meets_ite _ _ _).mpr ⟨fun _ => (meets_pure _).mpr h, fun _ => ?_⟩
  refine (meets_bind _ _).mpr (meets_get.mpr ((meets_ite _ _ _).mpr
    ⟨fun _ => (meets_pure _).mpr h, fun htx => ?_⟩))
  obtain ⟨hin, hidle | ⟨i, m, hlive, harmed⟩⟩ := h
  · exact absurd (show s.mem.txMsg = none from hidle.txMsg) (by simpa using htx)
  refine (meets_bind _ _).mpr ((meets_with_core (leads_of_uses
    (uses_fillTxFifo trivial fun _ => trivial)) (fill_cursor hlive hin)).imp ?_)
  rintro _ t ⟨hiier, htin, p, hle, hp, hmem⟩
  replace hmem : t.mem = { s.mem with txPos := p } := hmem
  have harmed' : Armed t.mem m t.dev.iier := by
    rw [hmem, hiier]
    refine ⟨⟨harmed.arbLost, harmed.txError, harmed.bnb, harmed.rxFull⟩, fun htx => harmed.tx ?_⟩
    exact htx.imp_left fun hlt => lt_of_le_of_lt hle hlt
  exact (meets_bind _ _).mpr ((leads_processTxDone (hmem ▸ hlive.setTxPos hp) htin harmed').imp
    fun _ _ hu => (meets_pure _).mpr hu)

/-- A run of the interrupt thread leaves the interrupts enabled that the transfer waits for. -/
theorem leads_process (h : Waiting x s) : Leads xiicProcess (fun _ t => Waiting x t) s := by
  have hread : ∀ (reg : Reg) {s : Sys TxEnables}, Waiting x s →
      Leads (xiicGetreg32 reg) (fun _ t => Waiting x t) s := by
    intro reg s h
    refine (meets_with_core (leads_of_uses (uses_getreg32 trivial))
      ((meets_getreg32 (G := free) (Q := fun _ t => t = s.core) reg).mpr fun _ => rfl)).imp ?_
    rintro _ t ⟨hiier, hcore⟩
    rw [Waiting, hcore, Config.mem_of_core hcore, hiier]
    exact h
  refine (meets_bind _ _).mpr ((hread .iisr h).imp fun isr t ht => ?_)
  refine (meets_bind _ _).mpr ((hread .iier ht).imp fun ier u hu => ?_)
  refine (meets_bind _ _).mpr ((meets_onDev_note _).mpr ?_)
  have hu' : Waiting x (u.noted (.pend (isr &&& ier))) :=
    ⟨(inBounds_noted (s := u.core) _).mpr ⟨hu.1, trivial⟩, hu.2⟩
  refine (meets_bind _ _).mpr ((meets_with_core (leads_processError hu'.good _)
    (processError_good hu'.good _)).imp fun _ v hv => ?_)
  have hv' : Waiting x v := by
    rcases hv.1 with rfl | hidle
    · exact hu'
    · exact ⟨hv.2.1, .inl hidle⟩
  refine (meets_bind _ _).mpr ((leads_processRx hv' isr _ 0).imp fun r w hw => ?_)
  refine (meets_bind _ _).mpr ((leads_processBnb hw r.2 _ r.1).imp fun r' y hy => ?_)
  refine (meets_bind _ _).mpr ((leads_processTx hy r'.2 _ r'.1).imp fun clr z hz => ?_)
  refine (meets_with_core (leads_of_uses (@uses_setreg32 _ .iisr clr trivial))
    ((meets_setreg32 (G := free) (Q := fun _ t => t = z.core) .iisr clr).mpr rfl)).imp ?_
  rintro _ a ⟨hiier, hcore⟩
  rw [Waiting, hcore, Config.mem_of_core hcore, hiier]
  exact hz

end Process

section Runs

variable {x : Transfer} {s : Sys TxEnables}

theorem leads_start (h : Idle s.mem) (hin : InBounds x.msgs s.core) :
    Leads (startTransfer x.msgs x.bufs) (fun _ t => Waiting x t) s := by
  rw [Leads, startTransfer, assignTransfer, xiicStartXfer, meets_bind, meets_onDev_modify, meets_bind]
  have hcore : Meets anyDevice free xiicReinit
      (fun _ t => t = (s.withMem (assigned x s.mem)).core.noted .reinit)
      (s.withMem (assigned x s.mem)).core :=
    meets_reinit trivial rfl
  refine (meets_with_core leads_reinit hcore).imp ?_
  rintro _ t ⟨⟨hlevel, hiier⟩, hcore⟩
  have hmem : t.mem = assigned x s.mem := congrArg Config.mem hcore
  have htin : InBounds x.msgs t.core := hcore ▸ (inBounds_noted _).mpr ⟨hin, trivial⟩
  have hentered : Entered t.mem t.dev.iier := by
    rw [hiier, hmem]
    exact ⟨by decide, fun hne => absurd h.rxMsg hne⟩
  refine (meets_with_core (leads_startXferUnlocked (hmem ▸ h.at_assigned) htin hentered (.inl hlevel))
    (startXferUnlocked_cursor (s := t.core) (hmem ▸ h.at_assigned) htin)).imp ?_
  rintro _ u ⟨harmed, huin, _⟩
  exact ⟨huin, .inr harmed⟩

theorem Reached.waiting (h : Reached txEnables x s) : Waiting x s := by
  induction h with
  | @start s t idle trace run =>
    have hin : InBounds x.msgs s.core := by simp [InBounds, Config.core, trace]
    exact (leads_start idle hin).2 _ _ run
  | process h run ih => exact (leads_process ih).2 _ _ run
  | timeout h run ih =>
    obtain rfl := (exec_modify _ _).mp run
    exact ⟨ih.1, .inl ⟨rfl, rfl, rfl⟩⟩

/-- In every state of a transfer between two runs of the interrupt thread, the interrupts
that can advance it are enabled. -/
theorem progress_interrupts_enabled (x : Transfer) (s : Sys TxEnables) (h : Reached txEnables x s)
    (htx : s.mem.txMsg ≠ none) : ∃ i m, s.mem.txMsg = some i ∧ s.mem.msgs[i]? = some m ∧
      Enables s.dev.iier intrArbLostMask ∧ Enables s.dev.iier intrTxErrorMask ∧
      (s.mem.rxMsg ≠ none → Enables s.dev.iier intrRxFullMask) ∧
      (s.mem.rxMsg = none ∧ (s.mem.nmsgs > 1 ∨ u32 (m.len.toNat - s.mem.txPos) > 0) →
        Enables s.dev.iier intrTxEmptyMask ∨ Enables s.dev.iier intrTxHalfMask) ∧
      (s.mem.rxMsg = none ∧ s.mem.nmsgs = 1 ∧ u32 (m.len.toNat - s.mem.txPos) = 0 →
        Enables s.dev.iier intrBnbMask) := by
  obtain ⟨-, hidle | ⟨i, m, hlive, harmed⟩⟩ := h.waiting
  · exact absurd hidle.txMsg htx
  refine ⟨i, m, hlive.txMsg, hlive.toAt.get, harmed.arbLost, harmed.txError, harmed.rxFull, ?_,
    fun _ => harmed.bnb⟩
  rintro ⟨hrx, hrest⟩
  rw [u32_sub (len_lt m) hlive.txPos] at hrest
  have htxor : Enables s.dev.iier (intrTxEmptyMask ||| intrTxHalfMask) := by
    refine harmed.tx ?_
    rcases hrest with hn | hlt
    · exact .inr ⟨hrx, hn⟩
    · exact .inl (by omega)
  rw [Enables, BitVec.and_comm] at htxor
  rw [Enables, Enables, BitVec.and_comm s.dev.iier, BitVec.and_comm s.dev.iier]
  exact (enables_or _ _ _).mp htxor

/-- A device that empties its FIFO before every access. -/
def drainedEnables (e : TxEnables) (_ : Unit) : (p : Port) → Option (Port.Res p × TxEnables)
  | .getreg32 .iier => some (e.iier, ⟨0, e.iier⟩)
  | .setreg32 .iier v => some ((), ⟨0, v⟩)
  | .setreg32 .resetr _ => some ((), ⟨0, 0⟩)
  | p => some (drained p, ⟨0, e.iier⟩)

theorem drainedEnables_refines : (ofAnswer drainedEnables).Refines txEnables id := by
  rintro e p v e' ⟨_, h⟩
  have hzero : ∀ n : ℕ, 0 ≤ n := Nat.zero_le
  cases p with
  | getreg8 reg =>
    cases reg with
    | tfo =>
      obtain ⟨rfl, rfl⟩ := Prod.mk.inj (Option.some.inj h)
      exact ⟨hzero _, rfl, rfl⟩
    | _ =>
      obtain ⟨_, rfl⟩ := Prod.mk.inj (Option.some.inj h)
      exact ⟨hzero _, rfl⟩
  | getreg32 reg =>
    cases reg with
    | iier =>
      obtain ⟨rfl, rfl⟩ := Prod.mk.inj (Option.some.inj h)
      exact ⟨hzero _, rfl, rfl⟩
    | _ =>
      obtain ⟨_, rfl⟩ := Prod.mk.inj (Option.some.inj h)
      exact ⟨hzero _, rfl⟩
  | setreg32 reg w =>
    cases reg with
    | resetr =>
      obtain ⟨_, rfl⟩ := Prod.mk.inj (Option.some.inj h)
      exact ⟨rfl, rfl⟩
    | _ =>
      obtain ⟨_, rfl⟩ := Prod.mk.inj (Option.some.inj h)
      exact ⟨hzero _, rfl⟩
  | setreg16 reg w =>
    obtain ⟨_, rfl⟩ := Prod.mk.inj (Option.some.inj h)
    cases reg with
    | _ => exact ⟨hzero _, rfl⟩
  | setreg8 reg w =>
    obtain ⟨_, rfl⟩ := Prod.mk.inj (Option.some.inj h)
    exact ⟨hzero _, rfl⟩

/-- After the start of a long write, with bytes left, the FIFO interrupts are enabled. -/
theorem progress_interrupts_enabled_twentyBytes : ∃ s, Reached txEnables twentyBytes s ∧
    s.mem.txMsg = some 0 ∧ ∃ m, s.mem.msgs[0]? = some m ∧
      u32 (m.len.toNat - s.mem.txPos) > 0 ∧
      (Enables s.dev.iier intrTxEmptyMask ∨ Enables s.dev.iier intrTxHalfMask) := by
  have href := withMemory_refines (D := XiicI2c) (E := Event) drainedEnables_refines
  have hdevice := onDevice_refines (D := XiicI2c) (E := Event) drainedEnables fun _ _ => ()
  have hrun : (run (onDevice drainedEnables fun _ _ => ()) 40
      (startTransfer twentyBytes.msgs twentyBytes.bufs) ⟨probed, [], ⟨0, 0⟩⟩).map
      (fun r => (r.2.mem.txMsg, r.2.mem.rxMsg, r.2.mem.msgs[0]?, r.2.mem.txPos)) =
      some (some 0, none, some ⟨0x50, 0, 20⟩, 15) := by
    decide +kernel
  obtain ⟨_, t, hexec, hend⟩ := exec_of_run (fun t : Sys TxEnables =>
    (t.mem.txMsg, t.mem.rxMsg, t.mem.msgs[0]?, t.mem.txPos)) hrun
  have hreach : Reached txEnables twentyBytes t :=
    .start ⟨rfl, rfl, rfl⟩ rfl (href.exec _ (hdevice.exec _ hexec))
  simp only [Prod.mk.injEq] at hend
  obtain ⟨htx, hrx, hm, hpos⟩ := hend
  obtain ⟨i, m, hi, hmi, _, _, _, hfifo, _⟩ :=
    progress_interrupts_enabled twentyBytes t hreach (by simp [htx])
  obtain rfl : i = 0 := Option.some.inj (hi.symm.trans htx)
  obtain rfl : m = ⟨0x50, 0, 20⟩ := Option.some.inj (hmi.symm.trans hm)
  have hspace : u32 (((⟨0x50, 0, 20⟩ : I2cMsg).len.toNat : ℤ) - t.mem.txPos) > 0 := by
    rw [hpos]
    decide
  exact ⟨t, hreach, htx, _, hm, hspace, hfifo ⟨hrx, .inr hspace⟩⟩

end Runs

end PynqPrio.Iic
