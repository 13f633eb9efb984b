import PynqPrio.IicCore

/-!
# Sequences of transfers

`xiic_xfer` assigns `tx_msg` and `nmsgs` before it takes the mutex in `xiic_start_xfer`,
so a run of the interrupt thread can fall in between and act for an earlier transfer. The
steps of `xiic_xfer` are interleaved with runs of the thread; the trace is that of the
current phase only.
-/
namespace PynqPrio.Iic
open Programs Programs.Driver Programs.Prog

/-- How far the current call of `xiic_xfer` is. -/
inductive Phase where
  | idle
  | checked (x : Transfer)
  | assigned (x : Transfer)
  | started (x : Transfer)

structure XferState (δ : Type) where
  phase : Phase
  sys : Sys δ

section System

variable {δ : Type}

def cleared (s : Sys δ) : Sys δ := { s with trace := [] }

inductive XferStep (dev : Machine Port Port.Res δ) : XferState δ → XferState δ → Prop where
  | process {ph : Phase} {s t : Sys δ} (run : Exec (withMemory dev) xiicProcess s () t) :
      XferStep dev ⟨ph, s⟩ ⟨ph, t⟩
  | busy {s t : Sys δ} (run : Exec (withMemory dev) xiicBusy s true t) :
      XferStep dev ⟨.idle, s⟩ ⟨.idle, t⟩
  | check (x : Transfer) {s t : Sys δ} (run : Exec (withMemory dev) xiicBusy s false t) :
      XferStep dev ⟨.idle, s⟩ ⟨.checked x, t⟩
  | assign {x : Transfer} {s t : Sys δ}
      (run : Exec (withMemory dev) (assignTransfer x.msgs x.bufs) (cleared s) () t) :
      XferStep dev ⟨.checked x, s⟩ ⟨.assigned x, t⟩
  | start {x : Transfer} {s t : Sys δ}
      (run : Exec (withMemory dev) xiicStartXfer (cleared s) () t) :
      XferStep dev ⟨.assigned x, s⟩ ⟨.started x, t⟩
  | finish {x : Transfer} {s : Sys δ} (result : xferResult s.mem x.msgs.length ≠ none) :
      XferStep dev ⟨.started x, s⟩ ⟨.idle, cleared s⟩
  | timeout {x : Transfer} {s t : Sys δ} (waiting : xferResult s.mem x.msgs.length = none)
      (run : Exec (withMemory dev) timeoutCleanup s () t) :
      XferStep dev ⟨.started x, s⟩ ⟨.idle, cleared t⟩

def xferInit (e : δ) : XferState δ := ⟨.idle, ⟨probed, [], e⟩⟩

/-- The trace begins with the reset and the first message of the transfer itself. -/
def OwnStart (l : List Event) : Prop := ∃ space, [.reinit, .startXfer 0 none space] <+: l

/-- The thread found the last message of the transfer completely sent, and said so. -/
def OwnDone (x : Transfer) (l : List Event) : Prop :=
  ∃ m, x.msgs.getLast? = some m ∧
    [.txSpace m.len.toNat m.len.toNat, .wakeup .done] <:+: l

/-- An error interrupt or bus-not-busy. -/
def Failing (pend : BitVec 32) : Prop :=
  pend &&& intrArbLostMask ≠ 0 ∨ pend &&& intrTxErrorMask ≠ 0 ∨ pend &&& intrBnbMask ≠ 0

/-- What a state of the system promises: a result belongs to the transfer it is returned
for, and space is only computed for a message that the transfer itself has started. -/
structure OwnResults (s : XferState δ) : Prop where
  done : ∀ x, s.phase = .started x →
    xferResult s.sys.mem x.msgs.length = some (x.msgs.length : ℤ) →
    OwnStart s.sys.trace ∧ s.sys.mem.msgs = x.msgs ∧ OwnDone x s.sys.trace
  error : ∀ x, s.phase = .started x → xferResult s.sys.mem x.msgs.length = some (-eio) →
    OwnStart s.sys.trace ∧ ∃ pend, .pend pend ∈ s.sys.trace ∧ Failing pend
  space : ∀ len pos, .txSpace len pos ∈ s.sys.trace →
    (∃ x, s.phase = .started x) ∧ OwnStart s.sys.trace

/-- Pending interrupts that the thread answers without touching an unstarted transfer:
no arbitration loss, and an RX_FULL before anything else, or nothing else. -/
def Harmless (pend : BitVec 32) : Prop :=
  pend &&& intrArbLostMask = 0 ∧ (pend &&& intrRxFullMask ≠ 0 ∨
    (pend &&& intrTxErrorMask = 0 ∧ pend &&& intrBnbMask = 0 ∧
      pend &&& (intrTxEmptyMask ||| intrTxHalfMask) = 0))

instance (pend : BitVec 32) : Decidable (Harmless pend) :=
  inferInstanceAs (Decidable (_ ∧ _))

/-- Every run of the thread since the assignment, before the start, was harmless. -/
def QuietWindow (s : XferState δ) : Prop :=
  ∀ x, s.phase = .assigned x → ∀ pend, .pend pend ∈ s.sys.trace → Harmless pend

end System

section Process

variable {x : Transfer} {s t : Sys Unit} {i : ℕ} {m : I2cMsg}

/-- How a run of the thread leaves a transfer that has been started. -/
def Outcome (x : Transfer) (pend : BitVec 32) (t : Sys Unit) : Prop :=
  Running x t ∨ Idle t.mem ∧ t.mem.msgs = x.msgs ∧
    ((t.mem.state = .done ∧ OwnDone x t.trace) ∨ (t.mem.state = .error ∧ Failing pend))

theorem wakeup_state (code : XilinxI2cState) :
    Meets anyDevice free (xiicWakeup code) (fun _ t => Idle t.mem ∧
      t.mem.msgs = s.mem.msgs ∧ t.mem.state = code ∧ t.trace = s.trace ++ [.wakeup code]) s := by
  simp only [xiicWakeup, meets_bind, meets_any_modify, meets_any_note, true_and, implies_true]
  exact ⟨⟨rfl, rfl, rfl⟩, rfl, rfl, rfl⟩

theorem processError_outcome (h : Running x s) (pend : BitVec 32) :
    Meets anyDevice free (processError pend) (fun _ t => Outcome x pend t) s := by
  obtain ⟨hs, i, m, hlive⟩ := h
  simp only [processError, meets_bind, meets_ite, meets_pure, meets_any_get]
  refine ⟨fun hc => meets_reinit trivial ?_, fun _ => .inl ⟨hs, i, m, hlive⟩⟩
  have hfail : Failing pend := by
    rcases hc with h | h
    · exact .inl h
    · exact .inr (.inl h.1)
  have hended : ∀ t : Sys Unit, Idle t.mem ∧ t.mem.msgs = s.mem.msgs ∧ t.mem.state = .error ∧
      t.trace = (s.noted .reinit).trace ++ [.wakeup .error] → Outcome x pend t :=
    fun t ht => .inr ⟨ht.1, ht.2.1.trans hlive.msgs, .inr ⟨ht.2.2.1, hfail⟩⟩
  refine ⟨fun _ => (wakeup_state _).imp ?_, fun _ => ⟨fun _ => (wakeup_state _).imp ?_, fun hc => ?_⟩⟩
  · intro _ t ht
    simp [ht.1.txMsg, hended t ht]
  · exact fun _ t ht => hended t ht
  · exact absurd (by simp [hlive.txMsg]) hc

theorem processBnb_outcome (h : Running x s) (out : Bool) (pend clr : BitVec 32) :
    Meets anyDevice free (processBnb out pend clr) (fun _ t => Outcome x pend t) s := by
  obtain ⟨hs, i, m, hlive⟩ := h
  have hrunning : Outcome x pend s := .inl ⟨hs, i, m, hlive⟩
  simp only [processBnb, meets_bind, meets_ite, meets_pure, meets_any_get, meets_irqDis]
  refine ⟨fun _ => hrunning, fun hc => ⟨fun _ => hrunning, fun _ => ⟨fun hlast => ?_, fun _ => ?_⟩⟩⟩
  all_goals have hbnb : Failing pend := .inr (.inr fun h0 => hc (.inr h0))
  · refine (meets_txSpace hlive.txMsg hlive.toAt.get).mpr ⟨trivial, (wakeup_state _).imp ?_⟩
    intro _ t hpost
    obtain ⟨hidle, hmsgs, hstate, htrace⟩ := hpost
    refine .inr ⟨hidle, hmsgs.trans hlive.msgs, ?_⟩
    by_cases hspace : u32 ((m.len.toNat : ℤ) - s.mem.txPos) = 0
    · rw [if_pos hspace] at hstate htrace
      rw [u32_sub (len_lt m) hlive.txPos] at hspace
      have hle := hlive.txPos
      have hlen : s.mem.txPos = m.len.toNat := by omega
      refine .inl ⟨hstate, m, ?_, ?_⟩
      · have hn := hlive.nmsgs
        rw [List.getLast?_eq_getElem?, ← hlive.msg]
        congr 1
        omega
      · rw [htrace, Config.noted_trace, hlen, List.append_assoc]
        exact (List.suffix_append _ _).isInfix
    · rw [if_neg hspace] at hstate
      exact .inr ⟨hstate, hbnb⟩
  · refine (wakeup_state _).imp ?_
    intro _ t hpost
    obtain ⟨hidle, hmsgs, hstate, _⟩ := hpost
    rw [if_neg (by simp)] at hstate
    exact .inr ⟨hidle, hmsgs.trans hlive.msgs, .inr ⟨hstate, hbnb⟩⟩

/-- The rest of a run of the thread, once an earlier branch has ended the transfer. -/
theorem Outcome.rest {pend : BitVec 32} (h : Outcome x pend s) {α : Type} {p : Xiic α}
    (hrunning : Running x s → Meets anyDevice free p (fun _ t => Outcome x pend t) s)
    (hidle : Idle s.mem → Meets anyDevice free p (fun _ t => t = s) s) :
    Meets anyDevice free p (fun _ t => Outcome x pend t) s := by
  rcases h with h | h
  · exact hrunning h
  · refine (hidle h.1).imp ?_
    rintro _ _ rfl
    exact .inr h

theorem process_outcome (h : Running x s) :
    Meets anyDevice free xiicProcess (fun _ t => ∃ pend, s.trace ++ [.pend pend] <+: t.trace ∧
      Outcome x pend t) s := by
  rw [xiicProcess, meets_bind, meets_getreg32]
  intro isr
  rw [meets_bind, meets_getreg32]
  intro ier
  refine (meets_bind _ _).mpr ((meets_any_note _).mpr ⟨trivial, ?_⟩)
  have h' : Running x (s.noted (.pend (isr &&& ier))) :=
    ⟨(inBounds_noted _).mpr ⟨h.1, trivial⟩, h.2⟩
  refine (meets_trace ((meets_bind _ _).mpr ((processError_outcome h' _).imp ?_))).imp
    fun _ t ht => ⟨isr &&& ier, ht.2, ht.1⟩
  intro _ t ht
  refine (meets_bind _ _).mpr ((ht.rest
    (fun hr => (processRx_running hr isr _ 0).imp fun _ _ hu => .inl hu)
    fun hi => processRx_idle hi isr _ 0).imp ?_)
  intro r u hu
  refine (meets_bind _ _).mpr ((hu.rest (fun hr => processBnb_outcome hr r.2 _ r.1)
    fun hi => processBnb_idle hi r.2 _ r.1).imp ?_)
  intro r' v hv
  refine (meets_bind _ _).mpr ((hv.rest
    (fun hr => (processTx_running hr r'.2 _ r'.1).imp fun _ _ hw => .inl hw)
    fun hi => processTx_idle hi r'.2 _ r'.1).imp ?_)
  intro clr w hw
  exact (meets_setreg32 _ _).mpr hw

/-- In the window a harmless run of the thread only reads the interrupts. -/
theorem process_window (hrx : s.mem.rxMsg = none) :
    Meets anyDevice free xiicProcess (fun _ t => ∃ pend, s.trace ++ [.pend pend] <+: t.trace ∧
      (Harmless pend → t = s.noted (.pend pend))) s := by
  rw [xiicProcess, meets_bind, meets_getreg32]
  intro isr
  rw [meets_bind, meets_getreg32]
  intro ier
  refine (meets_bind _ _).mpr ((meets_any_note _).mpr ⟨trivial, ?_⟩)
  generalize hpend : isr &&& ier = pend
  by_cases hquiet : Harmless pend
  · obtain ⟨harb, hrest⟩ := hquiet
    refine (meets_trace (Q := fun _ t => t = s.noted (.pend pend)) ?_).imp
      fun _ t ht => ⟨pend, ht.2, fun _ => ht.1⟩
    have herror : ¬(pend &&& intrArbLostMask ≠ 0 ∨
        (pend &&& intrTxErrorMask ≠ 0 ∧ pend &&& intrRxFullMask = 0)) := by
      rintro (h | ⟨h, h'⟩)
      · exact h harb
      · rcases hrest with hrest | hrest
        · exact hrest h'
        · exact h hrest.1
    rw [meets_bind, processError, if_neg herror, meets_pure, meets_bind]
    -- with RX_FULL the thread empties the FIFO and skips the rest
    have hrxPart : Meets anyDevice free (processRx isr pend 0) (fun r t =>
        t = s.noted (.pend pend) ∧ (r.2 = true ∨
          pend &&& intrBnbMask = 0 ∧ pend &&& (intrTxEmptyMask ||| intrTxHalfMask) = 0))
        (s.noted (.pend pend)) := by
      simp only [processRx, meets_bind, meets_ite, meets_pure, meets_any_get, Config.noted_mem, hrx]
      refine ⟨fun h0 => ⟨trivial, .inr ?_⟩, fun _ => ⟨fun _ => meets_clearRxFifo ⟨rfl, .inl trivial⟩,
        fun hc => absurd rfl hc⟩⟩
      rcases hrest with hrest | hrest
      · exact absurd h0 hrest
      · exact hrest.2
    refine hrxPart.imp ?_
    rintro ⟨clr, out⟩ _ ⟨rfl, hout⟩
    have hbnb : out = true ∨ pend &&& intrBnbMask = 0 := hout.imp_right And.left
    have htx : out = true ∨ pend &&& (intrTxEmptyMask ||| intrTxHalfMask) = 0 :=
      hout.imp_right And.right
    simp only [processBnb, if_pos hbnb, processTx, if_pos htx, meets_bind, meets_pure,
      meets_setreg32]
  · exact (meets_trace (Q := fun _ _ => True) ⟨fun _ _ _ _ => trivial, fun _ _ _ => trivial⟩).imp
      fun _ t ht => ⟨pend, ht.2, fun hq => absurd hq hquiet⟩

/-- The start of a transfer that finds its first message assigned. -/
theorem start_own (hat : At x s.mem 0 m) (hrx : s.mem.rxMsg = none) (htrace : s.trace = []) :
    Meets anyDevice free xiicStartXfer (fun _ t => Running x t ∧ OwnStart t.trace) s := by
  have hin : InBounds x.msgs (s.noted .reinit) := by
    simp [InBounds, htrace, Event.InBounds]
  have hrunning : Meets anyDevice free xiicStartXferUnlocked (fun _ t => Running x t)
      (s.noted .reinit) := startXferUnlocked_cursor hat hin
  have hown : Meets anyDevice free xiicStartXferUnlocked (fun _ t => OwnStart t.trace)
      (s.noted .reinit) := by
    rw [xiicStartXferUnlocked, meets_bind, meets_txFifoSpace]
    intro v
    rw [meets_bind, meets_any_get]
    simp only [Config.noted_mem, hat.txMsg, hrx]
    refine (meets_bind _ _).mpr ((meets_any_note _).mpr ⟨trivial, ?_⟩)
    refine (meets_trace (Q := fun _ _ => True)
      ⟨fun _ _ _ _ => trivial, fun _ _ _ => trivial⟩).imp fun _ t ht => ?_
    have hown := ht.2
    rw [Config.noted_trace, Config.noted_trace, htrace] at hown
    exact ⟨_, hown⟩
  rw [xiicStartXfer, meets_bind]
  exact meets_reinit trivial (hrunning.and hown)

end Process

section Transfers

variable {δ : Type} {dev : Machine Port Port.Res δ}

def NoSpace (l : List Event) : Prop := ∀ len pos, .txSpace len pos ∉ l

/-- The invariant of the system while all windows are quiet. -/
def XferOk (s : XferState δ) : Prop :=
  match s.phase with
  | .idle | .checked _ => Idle s.sys.mem ∧ NoSpace s.sys.trace
  | .assigned x =>
    (∃ m, At x s.sys.mem 0 m) ∧ s.sys.mem.rxMsg = none ∧ NoSpace s.sys.trace
  | .started x => OwnStart s.sys.trace ∧ (Running x s.sys.core ∨
      Idle s.sys.mem ∧ s.sys.mem.msgs = x.msgs ∧ ((s.sys.mem.state = .done ∧ OwnDone x s.sys.trace) ∨
        (s.sys.mem.state = .error ∧ ∃ pend, .pend pend ∈ s.sys.trace ∧ Failing pend)))

theorem busy_same (s : Sys Unit) : Meets anyDevice free xiicBusy (fun _ t => t = s) s := by
  simp only [xiicBusy, xiicBusBusy, meets_bind, meets_any_get, meets_ite, meets_pure, meets_getreg8]
  refine ⟨fun _ => trivial, fun _ v => meets_iterate (fun _ t => t = s) rfl ?_⟩
  rintro ⟨err, tries⟩ _ rfl
  simp [meets_ite]

/-- Without a transfer a run of the thread computes no space. -/
theorem process_noSpace {s : Sys Unit} (h : Idle s.mem) (hs : NoSpace s.trace) :
    Meets anyDevice free xiicProcess (fun _ t => Idle t.mem ∧ NoSpace t.trace) s := by
  refine (process_idle h (fun _ => trivial) fun _ => trivial).imp ?_
  intro _ t hpost
  obtain ⟨p, ht⟩ := hpost
  rcases ht with rfl | rfl
  · exact ⟨h, by simpa [NoSpace] using hs⟩
  · exact ⟨h, by simpa [NoSpace] using hs⟩

/-- A run of the thread keeps what the transfer has reached. -/
theorem process_started {x : Transfer} {s : Sys δ} (h : XferOk ⟨.started x, s⟩) {t : Sys δ}
    (run : Exec (withMemory dev) xiicProcess s () t) : XferOk ⟨.started x, t⟩ := by
  obtain ⟨⟨space, hown⟩, hrest⟩ := h
  have htrace : s.trace <+: t.trace := exec_trace _ run
  refine ⟨⟨space, hown.trans htrace⟩, ?_⟩
  rcases hrest with hrunning | ⟨hidle, hmsgs, hend⟩
  · obtain ⟨pend, hpend, hout | ⟨hi, hmsgs, hend⟩⟩ := exec_of_meets (process_outcome hrunning) run
    · exact .inl hout
    · refine .inr ⟨hi, hmsgs, hend.imp id fun herr => ⟨herr.1, pend, ?_, herr.2⟩⟩
      exact hpend.subset (List.mem_append_right _ (List.mem_singleton_self _))
  · have hmem : t.mem = s.mem := by
      obtain ⟨p, ht⟩ := exec_of_meets (process_idle (G := free) (s := s.core) hidle
        (fun _ => trivial) fun _ => trivial) run
      rcases ht with ht | ht
      · exact congrArg (fun c => c.mem) ht
      · exact congrArg (fun c => c.mem) ht
    refine .inr ⟨hmem ▸ hidle, hmem ▸ hmsgs, ?_⟩
    rw [hmem]
    rcases hend with ⟨hdone, m, hm, hinfix⟩ | ⟨herr, pend, hp, hfail⟩
    · exact .inl ⟨hdone, m, hm, hinfix.trans htrace.isInfix⟩
    · exact .inr ⟨herr, pend, htrace.subset hp, hfail⟩

theorem xferOk_step {a b : XferState δ} (h : XferOk a) (hquiet : QuietWindow b)
    (hstep : XferStep dev a b) : XferOk b := by
  cases hstep with
  | @process ph s t run =>
    cases ph with
    | idle => exact exec_of_meets (process_noSpace (s := s.core) h.1 h.2) run
    | checked x => exact exec_of_meets (process_noSpace (s := s.core) h.1 h.2) run
    | assigned x =>
      obtain ⟨⟨m, hat⟩, hrx, hs⟩ := h
      obtain ⟨pend, hpend, hsame⟩ := exec_of_meets (process_window (s := s.core) hrx) run
      have hmem : .pend pend ∈ t.trace :=
        hpend.subset (List.mem_append_right _ (List.mem_singleton_self _))
      have ht := hsame (hquiet x rfl pend hmem)
      have htmem : t.mem = s.mem := congrArg (fun c => c.mem) ht
      have htrace : t.trace = s.trace ++ [.pend pend] := congrArg (fun c => c.trace) ht
      refine ⟨⟨m, htmem ▸ hat⟩, htmem ▸ hrx, ?_⟩
      rw [htrace]
      simpa [NoSpace] using hs
    | started x => exact process_started h run
  | @busy s t run =>
    have ht := exec_of_meets (busy_same s.core) run
    have htrace : t.trace = s.trace := congrArg (fun c => c.trace) ht
    exact ⟨Config.mem_of_core ht ▸ h.1, htrace ▸ h.2⟩
  | @check x s t run =>
    have ht := exec_of_meets (busy_same s.core) run
    have htrace : t.trace = s.trace := congrArg (fun c => c.trace) ht
    exact ⟨Config.mem_of_core ht ▸ h.1, htrace ▸ h.2⟩
  | @assign x s t run =>
    have hassign : Meets anyDevice free (assignTransfer x.msgs x.bufs)
        (fun _ t => t = (cleared s).core.withMem (assigned x s.mem)) (cleared s).core := by
      rw [assignTransfer, meets_any_modify]
      exact ⟨fun _ => trivial, rfl⟩
    have ht := exec_of_meets hassign run
    have htmem : t.mem = assigned x s.mem := congrArg (fun c => c.mem) ht
    have htrace : t.trace = [] := congrArg (fun c => c.trace) ht
    have hrx : (assigned x s.mem).rxMsg = none := h.1.rxMsg
    have hpos := x.pos
    refine ⟨⟨x.msgs[0], ?_⟩, htmem ▸ hrx, by simp [htrace, NoSpace]⟩
    rw [htmem]
    exact ⟨rfl, rfl, List.getElem?_eq_getElem hpos, Nat.zero_add _, by simp [hrx]⟩
  | @start x s t run =>
    obtain ⟨⟨m, hat⟩, hrx, _⟩ := h
    obtain ⟨hrunning, hown⟩ := exec_of_meets (start_own (s := (cleared s).core) hat hrx rfl) run
    exact ⟨hown, .inl hrunning⟩
  | @finish x s result =>
    obtain ⟨_, ⟨_, i, m, hlive⟩ | ⟨hidle, _⟩⟩ := h
    · have hstate : s.mem.state = .start := hlive.state
      exact absurd (by simp [xferResult, hstate]) result
    · exact ⟨hidle, by simp [cleared, NoSpace]⟩
  | @timeout x s t waiting run =>
    have hidle : Meets anyDevice free timeoutCleanup (fun _ t => Idle t.mem) s.core := by
      rw [timeoutCleanup, meets_any_modify]
      exact ⟨fun _ => trivial, rfl, rfl, rfl⟩
    exact ⟨exec_of_meets hidle run, by simp [cleared, NoSpace]⟩

theorem XferOk.ownResults {s : XferState δ} (h : XferOk s) : OwnResults s := by
  obtain ⟨ph, s⟩ := s
  have hstarted : ∀ x, ph = .started x → XferOk ⟨.started x, s⟩ := by
    rintro x rfl
    exact h
  have hlen : ∀ x : Transfer, (x.msgs.length : ℤ) ≠ -eio := by
    intro x
    simp only [eio]
    omega
  refine ⟨fun x hph hres => ?_, fun x hph hres => ?_, fun len pos hspace => ?_⟩
  · obtain ⟨hown, ⟨_, i, m, hlive⟩ | ⟨_, hmsgs, hdone | herr⟩⟩ := hstarted x hph
    · have hstate : s.mem.state = .start := hlive.state
      simp [xferResult, hstate] at hres
    · exact ⟨hown, hmsgs, hdone.2⟩
    · have hstate : s.mem.state = .error := herr.1
      simp only [xferResult, hstate, true_or, if_true] at hres
      exact absurd (Option.some.inj hres).symm (hlen x)
  · obtain ⟨hown, ⟨_, i, m, hlive⟩ | ⟨_, hmsgs, hdone | herr⟩⟩ := hstarted x hph
    · have hstate : s.mem.state = .start := hlive.state
      simp [xferResult, hstate] at hres
    · have hstate : s.mem.state = .done := hdone.1
      simp only [xferResult, hstate, or_true, if_true] at hres
      exact absurd (Option.some.inj hres) (hlen x)
    · exact ⟨hown, herr.2⟩
  · cases ph with
    | idle => exact absurd hspace (h.2 len pos)
    | checked x => exact absurd hspace (h.2 len pos)
    | assigned x => exact absurd hspace (h.2.2 len pos)
    | started x => exact ⟨⟨x, rfl⟩, h.1⟩

/-- In every interleaving in which all windows are quiet, every result and every space
that is computed belongs to the transfer itself. -/
theorem ownResults_of_quietWindow (dev : Machine Port Port.Res δ) (e : δ) (s : XferState δ)
    (h : Relation.ReflTransGen (fun a b => XferStep dev a b ∧ QuietWindow b) (xferInit e) s) :
    OwnResults s := by
  refine XferOk.ownResults ?_
  induction h with
  | refl => exact ⟨⟨rfl, rfl, rfl⟩, by simp [xferInit, NoSpace]⟩
  | tail _ hstep ih => exact xferOk_step ih hstep.2 hstep.1

end Transfers

section Runs

inductive XferChoice where
  | check (x : Transfer)
  | assign
  | start
  | process
  | timeout

/-- Take a step on the core under a schedule. -/
def XferChoice.step (sched : Schedule) (s : XferState IicCore) :
    XferChoice → Option (XferState IicCore)
  | .process => (runPart sched xiicProcess s.sys).map (⟨s.phase, ·⟩)
  | .check x =>
    match s.phase, run (onDevice IicCore.answer sched) 40 xiicBusy s.sys with
    | .idle, some (false, t) => some ⟨.checked x, t⟩
    | _, _ => none
  | .assign =>
    match s.phase with
    | .checked x => (runPart sched (assignTransfer x.msgs x.bufs) (cleared s.sys)).map
        (⟨.assigned x, ·⟩)
    | _ => none
  | .start =>
    match s.phase with
    | .assigned x => (runPart sched xiicStartXfer (cleared s.sys)).map (⟨.started x, ·⟩)
    | _ => none
  | .timeout =>
    match s.phase with
    | .started x =>
      if xferResult s.sys.mem x.msgs.length = none then
        (runPart sched timeoutCleanup s.sys).map fun t => ⟨.idle, cleared t⟩
      else none
    | _ => none

theorem XferChoice.step_sound {sched : Schedule} {s t : XferState IicCore} {c : XferChoice}
    (h : c.step sched s = some t) : XferStep iicCore s t := by
  obtain ⟨ph, s⟩ := s
  cases c with
  | process =>
    obtain ⟨u, hrun, rfl⟩ := Option.map_eq_some_iff.mp h
    exact .process (runPart_exec hrun)
  | check x =>
    simp only [step] at h
    split at h
    · rename_i hrun
      cases h
      exact .check x ((onDevice_refines IicCore.answer sched).exec _
        ((watch_sound xiicBusy s).1 _ _ hrun))
    · cases h
  | assign =>
    cases ph with
    | checked x =>
      simp only [step] at h
      obtain ⟨u, hrun, rfl⟩ := Option.map_eq_some_iff.mp h
      exact .assign (runPart_exec hrun)
    | idle | assigned | started => cases h
  | start =>
    cases ph with
    | assigned x =>
      simp only [step] at h
      obtain ⟨u, hrun, rfl⟩ := Option.map_eq_some_iff.mp h
      exact .start (runPart_exec hrun)
    | idle | checked | started => cases h
  | timeout =>
    cases ph with
    | started x =>
      simp only [step] at h
      split at h
      · obtain ⟨u, hrun, rfl⟩ := Option.map_eq_some_iff.mp h
        exact .timeout ‹_› (runPart_exec hrun)
      · cases h
    | idle | checked | assigned => cases h

/-- Take steps as long as the states they lead to are allowed. -/
def runXfers (ok : XferState IicCore → Bool) (l : List (XferChoice × Schedule)) :
    Option (XferState IicCore) :=
  l.foldl (fun s c => s.bind fun s => (c.1.step c.2 s).filter ok) (some (xferInit .idle))

theorem runXfers_sound {ok : XferState IicCore → Bool} {l : List (XferChoice × Schedule)}
    {t : XferState IicCore} (h : runXfers ok l = some t) :
    Relation.ReflTransGen (fun a b => XferStep iicCore a b ∧ ok b = true) (xferInit .idle) t := by
  induction l using List.reverseRecOn generalizing t with
  | nil =>
    cases h
    exact .refl
  | append_singleton l c ih =>
    rw [runXfers, List.foldl_append] at h
    obtain ⟨s, hs, hstep⟩ := Option.bind_eq_some_iff.mp h
    obtain ⟨hstep, hok⟩ := Option.filter_eq_some_iff.mp hstep
    exact (ih hs).tail ⟨XferChoice.step_sound hstep, hok⟩

def writeOne : Transfer where
  msgs := [⟨0x50, 0, 1⟩]
  bufs := fun _ _ => 0x11
  pos := by decide
  lt := by decide

def still : Schedule := fun _ _ => []

/-- The words written earlier go out, and the STOP raises bus-not-busy. -/
def late : Schedule := fun c p =>
  match p with
  | .getreg32 .iisr => if c.txFifo.length = 2 then [.drain, .drain, .raise intrBnbMask] else []
  | _ => []

/-- The first write times out; its STOP is noticed when the second has been assigned. -/
def lateStop : List (XferChoice × Schedule) :=
  [(.check writeOne, still), (.assign, still), (.start, still), (.timeout, still),
    (.check writeOne, still), (.assign, still), (.process, late), (.start, still)]

/-- The transfer ends successfully although it has started no message. -/
def doneUnstarted (s : XferState IicCore) : Bool :=
  match s.phase with
  | .started x => decide (xferResult s.sys.mem x.msgs.length = some (x.msgs.length : ℤ) ∧
      s.sys.trace.length < 2)
  | _ => false

/-- The second write is reported as done without having been started. -/
theorem result_inherited : ¬∀ s, Relation.ReflTransGen (XferStep iicCore) (xferInit .idle) s →
    OwnResults s := by
  intro h
  have hrun : (runXfers (fun _ => true) lateStop).map doneUnstarted = some true := by
    decide +kernel
  obtain ⟨s, hs, hbad⟩ := Option.map_eq_some_iff.mp hrun
  have hown := h s (Relation.ReflTransGen.mono (fun _ _ => And.left) _ _ (runXfers_sound hs))
  simp only [doneUnstarted] at hbad
  split at hbad
  · rename_i x hph
    obtain ⟨hres, hlen⟩ := of_decide_eq_true hbad
    obtain ⟨space, hstart⟩ := (hown.done x hph hres).1
    exact absurd (hstart.length_le.trans_lt hlen) (by simp)
  · cases hbad

/-- The same two writes, with the STOP noticed before the second is assigned. -/
def earlyStop : List (XferChoice × Schedule) :=
  [(.check writeOne, still), (.assign, still), (.start, still), (.timeout, still),
    (.process, late), (.check writeOne, still), (.assign, still), (.process, still),
    (.start, still), (.process, late)]

def quiet (s : XferState IicCore) : Bool :=
  match s.phase with
  | .assigned _ => s.sys.trace.all fun e =>
      match e with
      | .pend pend => decide (Harmless pend)
      | _ => true
  | _ => true

theorem quietWindow_of_quiet {s : XferState IicCore} (h : quiet s = true) : QuietWindow s := by
  intro x hph pend hpend
  simp only [quiet, hph] at h
  exact of_decide_eq_true (List.all_eq_true.mp h _ hpend)

def doneStarted (s : XferState IicCore) : Bool :=
  match s.phase with
  | .started x => decide (xferResult s.sys.mem x.msgs.length = some (x.msgs.length : ℤ))
  | _ => false

theorem ownResults_earlyStop : ∃ s, doneStarted s = true ∧ OwnResults s := by
  have hrun : (runXfers quiet earlyStop).map doneStarted = some true := by
    decide +kernel
  obtain ⟨s, hs, hdone⟩ := Option.map_eq_some_iff.mp hrun
  refine ⟨s, hdone, ownResults_of_quietWindow iicCore .idle s ?_⟩
  exact Relation.ReflTransGen.mono (fun _ _ hab => ⟨hab.1, quietWindow_of_quiet hab.2⟩) _ _
    (runXfers_sound hs)

end Runs

end PynqPrio.Iic
