import PynqPrio.UartTransmit

/-!
# The count of line errors

A read of `STATUS` clears its error bits. `ulite_isr` counts the bits that it finds, while
`ulite_start_tx` and `ulite_tx_empty` read the same register and look at other bits.
-/
namespace PynqPrio.Uart
open Programs Programs.Driver Programs.Prog

section Errors

inductive LineError where
  | overrun | frame
  deriving DecidableEq

namespace LineError

def bit : LineError → UartRegs → Bool
  | .overrun, d => d.overrun
  | .frame, d => d.frame

/-- How often the device has set the bit. -/
def settings : LineError → UartRegs → ℕ
  | .overrun, d => d.overruns
  | .frame, d => d.frames

def count : LineError → Icount → BitVec 32
  | .overrun, n => n.overrun
  | .frame, n => n.frame

end LineError

inductive ErrorLabel where
  | tx (label : TxLabel)
  | txEmpty

def ErrorStep (s : Sys) (label : ErrorLabel) (t : Sys) : Prop :=
  match label with
  | .tx label => TxStep s label t
  | .txEmpty => ∃ ret, Exec (withMemory uartCore) uliteTxEmpty s ret t

/-- How often the count of an error has gone up in a run. -/
def increments (e : LineError) : Sys → List (ErrorLabel × Sys) → ℕ
  | _, [] => 0
  | s, (_, t) :: l => (e.count t.mem.icount - e.count s.mem.icount).toNat + increments e t l

def ErrorsClear (s : Sys) : Prop := ∀ e : LineError, e.bit s.dev = false

/-- Every setting of an error bit in the run has been counted once. -/
structure ErrorsCounted (s : Sys) (l : List (ErrorLabel × Sys)) : Prop where
  increments : ∀ e : LineError, increments e s l = e.settings (finish s l).dev - e.settings s.dev
  icount : ∀ e : LineError, e.count (finish s l).mem.icount = e.count s.mem.icount +
    BitVec.ofNat 32 (e.settings (finish s l).dev - e.settings s.dev)

/-- A call that does not look at the error bits finds none set. -/
def ErrorsUnread (s : Sys) (label : ErrorLabel) (_ : Sys) : Prop :=
  match label with
  | .tx .startTx | .txEmpty => ErrorsClear s
  | .tx (.append _) | .tx (.setXChar _) | .tx (.setStopped _) | .tx .iteration
  | .tx (.device _) => True

/-- The settings between two states of the device, of which `n` have been cleared. -/
def Settled (e : LineError) (d : UartRegs) (n : ℕ) (d' : UartRegs) : Prop :=
  e.settings d' + (e.bit d).toNat = e.settings d + (e.bit d').toNat + n

variable {e : LineError} {d d' d'' : UartRegs} {s t : Sys} {l : List (ErrorLabel × Sys)} {m n : ℕ}

theorem Settled.trans (h : Settled e d m d') (h' : Settled e d' n d'') : Settled e d (m + n) d'' := by
  simp only [Settled] at h h' ⊢
  omega

theorem settled_of_same (hsettings : e.settings d' = e.settings d) (hbit : e.bit d' = e.bit d) :
    Settled e d 0 d' := by
  rw [Settled, hsettings, hbit, Nat.add_zero]

theorem settled_act (d : UartRegs) (a : Activity) : Settled e d 0 (d.act a) := by
  have hoverrun : Settled e d 0 d.setOverrun := by
    cases e with
    | overrun =>
      cases hbit : d.overrun <;>
        simp [Settled, LineError.settings, LineError.bit, UartRegs.setOverrun, hbit]
    | frame => exact settled_of_same rfl rfl
  cases a with
  | drain => cases e <;> exact settled_of_same rfl rfl
  | arrive b =>
    simp only [UartRegs.act]
    split
    · exact hoverrun
    · cases e <;> exact settled_of_same rfl rfl
  | overrun => exact hoverrun
  | frame =>
    cases e with
    | overrun => exact settled_of_same rfl rfl
    | frame =>
      cases hbit : d.frame <;>
        simp [Settled, LineError.settings, LineError.bit, UartRegs.act, UartRegs.setFrame, hbit]
  | parity => cases e <;> exact settled_of_same rfl rfl

theorem settled_acts (d : UartRegs) (l : List Activity) : Settled e d 0 (d.acts l) :=
  UartRegs.acts_invariant (Settled e d 0) (fun d' a h => h.trans (settled_act d' a))
    (settled_of_same rfl rfl) l

/-- A read of `STATUS` clears the bit if it is set. -/
theorem settled_status (d : UartRegs) (l : List Activity) :
    Settled e d (e.bit d).toNat (d.clearErrors.acts l) := by
  have hclear : Settled e d (e.bit d).toNat d.clearErrors := by
    cases e <;> simp [Settled, LineError.settings, LineError.bit, UartRegs.clearErrors]
  exact hclear.trans (settled_acts _ l)

theorem settled_send (d : UartRegs) (b : BitVec 8) : Settled e d 0 (d.send b) := by
  rw [UartRegs.send]
  split
  · cases e <;> exact settled_of_same rfl rfl
  · cases e <;> exact settled_of_same rfl rfl

/-- `ulite_transmit` neither reads `STATUS` nor counts errors. -/
theorem settled_transmitted {stat : BitVec 32} {r : Bool} (h : Transmitted stat s r t) :
    Settled e s.dev 0 t.dev ∧ e.count t.mem.icount = e.count s.mem.icount := by
  cases h with
  | full hfull => exact ⟨settled_of_same rfl rfl, rfl⟩
  | idle hroom hx hidle => exact ⟨settled_of_same rfl rfl, rfl⟩
  | xChar l hroom hx hmem hdev =>
    rw [hmem, hdev]
    refine ⟨(settled_send _ _).trans (settled_acts _ l), ?_⟩
    cases e <;> rfl
  | byte l hroom hx hne hgo hmem hdev =>
    rw [hmem, hdev]
    refine ⟨(settled_send _ _).trans (settled_acts _ l), ?_⟩
    cases e <;> rfl

theorem settled_startTx (h : Exec (withMemory uartCore) uliteStartTx s () t) :
    Settled e s.dev (e.bit s.dev).toNat t.dev ∧ e.count t.mem.icount = e.count s.mem.icount := by
  obtain ⟨l, r, htransmit⟩ := startTx_of_exec h
  obtain ⟨hsettled, hcount⟩ := settled_transmitted (e := e) htransmit
  exact ⟨(settled_status s.dev l).trans hsettled, hcount⟩

theorem settled_txEmpty {ret : ℕ} (h : Exec (withMemory uartCore) uliteTxEmpty s ret t) :
    Settled e s.dev (e.bit s.dev).toNat t.dev ∧ e.count t.mem.icount = e.count s.mem.icount := by
  simp only [uliteTxEmpty, exec_bind_iff, exec_status, exec_pure] at h
  obtain ⟨_, _, ⟨rfl, l, rfl⟩, -, rfl⟩ := h
  exact ⟨settled_status s.dev l, rfl⟩

/-- `ulite_receive` counts the bits of its `STATUS`. -/
theorem count_received {u v : Sys} {r : Bool} (h : Received d.status u r v) :
    Settled e u.dev 0 v.dev ∧
      e.count v.mem.icount = e.count u.mem.icount + BitVec.ofNat 32 (e.bit d).toNat := by
  constructor
  · cases h.dev with
    | inl hsame =>
      rw [hsame]
      exact settled_of_same rfl rfl
    | inr hpop =>
      obtain ⟨-, l, hpop⟩ := hpop
      have hpopped : Settled e u.dev 0 u.dev.popRx := by cases e <;> exact settled_of_same rfl rfl
      rw [hpop]
      exact hpopped.trans (settled_acts _ l)
  · have hbusy := h.busy
    rw [h.mem]
    cases r with
    | false =>
      have hquiet := (status_quiet d).mp (by simpa using hbusy)
      cases e with
      | overrun => simp [LineError.count, LineError.bit, UartMem.withIcount, hquiet]
      | frame => simp [LineError.count, LineError.bit, UartMem.withIcount, hquiet]
    | true =>
      cases e with
      | overrun =>
        have hbit := status_overrun d
        cases hset : d.overrun <;>
          simp_all [LineError.count, LineError.bit, UartMem.withIcount, Icount.received]
      | frame =>
        have hbit := status_frame d
        cases hset : d.frame <;>
          simp_all [LineError.count, LineError.bit, UartMem.withIcount, Icount.received]

/-- An iteration of `ulite_isr` counts the settings that it clears. -/
theorem settled_iteration {r : Bool} (h : Exec (withMemory uartCore) isrIteration s r t) :
    Settled e s.dev (e.bit s.dev).toNat t.dev ∧
      e.count t.mem.icount = e.count s.mem.icount + BitVec.ofNat 32 (e.bit s.dev).toNat := by
  obtain ⟨l, r₁, r₂, u, hreceive, htransmit, -⟩ := iteration_of_exec h
  obtain ⟨hreceived, hcounted⟩ := count_received (e := e) hreceive
  obtain ⟨hsettled, hcount⟩ := settled_transmitted (e := e) htransmit
  refine ⟨((settled_status s.dev l).trans hreceived).trans hsettled, ?_⟩
  rw [hcount, hcounted]
  rfl

/-- The settings that a step clears and counts. -/
def countedAt (e : LineError) (s : Sys) : ErrorLabel → ℕ
  | .tx .iteration => (e.bit s.dev).toNat
  | .tx .startTx | .txEmpty | .tx (.append _) | .tx (.setXChar _) | .tx (.setStopped _)
  | .tx (.device _) => 0

/-- The settings that a step clears without a count. -/
def lostAt (e : LineError) (s : Sys) : ErrorLabel → ℕ
  | .tx .startTx | .txEmpty => (e.bit s.dev).toNat
  | .tx .iteration | .tx (.append _) | .tx (.setXChar _) | .tx (.setStopped _)
  | .tx (.device _) => 0

def lost (e : LineError) : Sys → List (ErrorLabel × Sys) → ℕ
  | _, [] => 0
  | s, (label, t) :: l => lostAt e s label + lost e t l

theorem errorStep_settled {label : ErrorLabel} (h : ErrorStep s label t) :
    Settled e s.dev (countedAt e s label + lostAt e s label) t.dev ∧
      e.count t.mem.icount = e.count s.mem.icount + BitVec.ofNat 32 (countedAt e s label) := by
  cases label with
  | txEmpty =>
    obtain ⟨ret, hrun⟩ := h
    obtain ⟨hsettled, hcount⟩ := settled_txEmpty (e := e) hrun
    rw [countedAt, lostAt, Nat.zero_add, hcount]
    exact ⟨hsettled, (BitVec.add_zero _).symm⟩
  | tx label =>
    cases label with
    | append b =>
      obtain ⟨-, rfl⟩ := h
      exact ⟨settled_of_same rfl rfl, (BitVec.add_zero _).symm⟩
    | setXChar b =>
      obtain rfl := h
      exact ⟨settled_of_same rfl rfl, (BitVec.add_zero _).symm⟩
    | setStopped stopped =>
      obtain rfl := h
      exact ⟨settled_of_same rfl rfl, (BitVec.add_zero _).symm⟩
    | startTx =>
      obtain ⟨hsettled, hcount⟩ := settled_startTx (e := e) h
      rw [countedAt, lostAt, Nat.zero_add, hcount]
      exact ⟨hsettled, (BitVec.add_zero _).symm⟩
    | iteration =>
      obtain ⟨busy, hrun⟩ := h
      exact settled_iteration hrun
    | device a =>
      obtain rfl := h
      exact ⟨settled_act s.dev a, (BitVec.add_zero _).symm⟩

theorem increment_eq {label : ErrorLabel} (h : ErrorStep s label t) :
    (e.count t.mem.icount - e.count s.mem.icount).toNat = countedAt e s label := by
  have hsmall : countedAt e s label < 2 ^ 32 := by
    have hbit := (e.bit s.dev).toNat_le
    cases label with
    | txEmpty => exact Nat.two_pow_pos 32
    | tx label =>
      cases label <;> simp only [countedAt] <;> omega
  rw [(errorStep_settled h).2, BitVec.add_comm, BitVec.add_sub_cancel, BitVec.toNat_ofNat,
    Nat.mod_eq_of_lt hsmall]

theorem errorRun_settled {l : List (ErrorLabel × Sys)} (hrun : Run ErrorStep s l) :
    Settled e s.dev (increments e s l + lost e s l) (finish s l).dev ∧
      e.count (finish s l).mem.icount =
        e.count s.mem.icount + BitVec.ofNat 32 (increments e s l) := by
  induction hrun with
  | nil s => exact ⟨settled_of_same rfl rfl, (BitVec.add_zero _).symm⟩
  | @cons s t label l first _ ih =>
    obtain ⟨hsettled, hcount⟩ := errorStep_settled (e := e) first
    obtain ⟨hrest, hcountRest⟩ := ih
    have hall := hsettled.trans hrest
    rw [increments, lost, increment_eq first, finish]
    constructor
    · rw [Settled] at hall ⊢
      omega
    · rw [hcountRest, hcount, BitVec.ofNat_add, BitVec.add_assoc]

/-- Nothing is lost exactly if no call that does not look at the error bits clears one. -/
theorem lost_eq_zero (s : Sys) (l : List (ErrorLabel × Sys)) :
    (∀ e, lost e s l = 0) ↔ Everywhere ErrorsUnread s l := by
  induction l generalizing s with
  | nil => simp [lost, Everywhere]
  | cons x l ih =>
    obtain ⟨label, t⟩ := x
    have hstep : (∀ e, lostAt e s label = 0) ↔ ErrorsUnread s label t := by
      cases label with
      | txEmpty => simp [lostAt, ErrorsUnread, ErrorsClear]
      | tx label => cases label <;> simp [lostAt, ErrorsUnread, ErrorsClear]
    simp only [lost, Everywhere, Nat.add_eq_zero_iff, forall_and, ← hstep, ← ih]

/-- In every run between two states without a set error bit, all settings have been counted
exactly if `ulite_start_tx` and `ulite_tx_empty` have found none of the bits set. -/
theorem errors_counted_iff (s : Sys) (hstart : ErrorsClear s) (l : List (ErrorLabel × Sys))
    (hrun : Run ErrorStep s l) (hquiet : ErrorsClear (finish s l)) :
    ErrorsCounted s l ↔ Everywhere ErrorsUnread s l := by
  have htotal : ∀ e : LineError, e.settings (finish s l).dev - e.settings s.dev =
      increments e s l + lost e s l := by
    intro e
    have hsettled := (errorRun_settled (e := e) hrun).1
    rw [Settled, hstart e, hquiet e] at hsettled
    simp only [Bool.toNat_false] at hsettled
    omega
  rw [← lost_eq_zero]
  constructor
  · intro h e
    have hcounted := h.increments e
    have hall := htotal e
    omega
  · intro h
    constructor
    · intro e
      rw [htotal, h e, Nat.add_zero]
    · intro e
      rw [htotal, h e, Nat.add_zero, (errorRun_settled hrun).2]

end Errors

section Runs

def overrunPort : Sys := freshPort.withDev (freshPort.dev.act .overrun)

def iterated (s : Sys) : Sys :=
  ((run (onDevice UartRegs.answer calm) 1 isrIteration s).getD (false, s)).2

theorem errorStep_iterated {s : Sys} {r : Bool}
    (h : run (onDevice UartRegs.answer calm) 1 isrIteration s = some (r, iterated s)) :
    ErrorStep s (.tx .iteration) (iterated s) :=
  ⟨r, (onDevice_refines UartRegs.answer calm).exec _ ((watch_sound _ _).1 _ _ h)⟩

theorem errorsClear_of {s : Sys} (hoverrun : s.dev.overrun = false) (hframe : s.dev.frame = false) :
    ErrorsClear s := by
  intro e
  cases e with
  | overrun => exact hoverrun
  | frame => exact hframe

/-- `ulite_isr` counts the overrun. -/
theorem overrun_counted : ErrorsCounted freshPort
    [(.tx (.device .overrun), overrunPort), (.tx .iteration, iterated overrunPort)] := by
  refine (errors_counted_iff freshPort (errorsClear_of rfl rfl) _ ?_ (errorsClear_of rfl rfl)).mpr ?_
  · apply Run.cons
    · rfl
    apply Run.cons
    · exact errorStep_iterated rfl
    exact .nil _
  · exact ⟨trivial, trivial, trivial⟩

/-- `ulite_start_tx` does not. -/
theorem overrun_lost : ¬∀ s, ErrorsClear s → ∀ l, Run ErrorStep s l → ErrorsClear (finish s l) →
    ErrorsCounted s l := by
  intro h
  have hcounted := h freshPort (errorsClear_of rfl rfl)
    [(.tx (.device .overrun), overrunPort), (.tx .startTx, started overrunPort)]
    (by
      apply Run.cons
      · rfl
      apply Run.cons
      · exact txStep_started rfl
      exact .nil _)
    (errorsClear_of rfl rfl)
  exact absurd (hcounted.increments .overrun) (by decide)

end Runs

end PynqPrio.Uart
