import PynqPrio.GpioDispatch
import PynqPrio.GpioInputs
import PynqPrio.LabelledRuns

/-!
# Lost edges

The handler reads the pins, handles their interrupts and then acknowledges the interrupt
of the channel, while the pins go on changing. The `IPISR` bit does not count: the
acknowledgement clears it also for an edge that came after the pins were read.
-/
namespace PynqPrio.Gpio
open Programs Programs.Driver Programs.Prog

section Handler

inductive Phase where
  | idle
  | read (val : BitVec 32)
  | dispatched
  deriving DecidableEq

inductive EdgeLabel where
  | input (i : Input)
  | read
  | dispatch (val : BitVec 32)
  | ack

/-- The system with the history of its pins: a pin is `owed` if it has risen while unmasked,
has stayed unmasked and high, and has not been dispatched since; it is `fresh` if all this
is so since the handler has read the pins. -/
structure EdgeState where
  sys : Sys GpioRegs
  phase : Phase
  owed : ℕ → Bool
  fresh : ℕ → Bool

def EdgeLabel.dispatches (pin : ℕ) : EdgeLabel → Bool
  | .dispatch val => val.getLsbD pin
  | .input _ | .read | .ack => false

/-- The history of a pin over a step: a pin enters when it rises, and stays while it is
unmasked and high and its interrupt is not handled. -/
def carry (c : Channel) (label : EdgeLabel) (old : ℕ → Bool) (s t : Sys GpioRegs) (pin : ℕ) : Bool :=
  (old pin || rises c s t pin) &&
    (high c t pin && unmaskedPin c t pin && !label.dispatches pin)

def freshAfter (c : Channel) (s : EdgeState) (t : Sys GpioRegs) (label : EdgeLabel) (pin : ℕ) :
    Bool :=
  match label with
  | .read => false
  | .input _ | .dispatch _ | .ack => carry c label s.fresh s.sys t pin

/-- The steps of `xgpio_irqhandler`, one after the other. -/
def Moves (dual : Bool) (c : Channel) (s : EdgeState) (label : EdgeLabel) (t : EdgeState) : Prop :=
  match label with
  | .input i => InputStep dual s.sys i t.sys ∧ t.phase = s.phase
  | .read => s.phase = .idle ∧ ∃ val, t.phase = .read val ∧
      Exec (withMemory gpioCore) (irqhandlerRead c) s.sys val t.sys
  | .dispatch val => s.phase = .read val ∧ t.phase = .dispatched ∧
      Exec (withMemory gpioCore) (irqhandlerDispatch c val) s.sys () t.sys
  | .ack => s.phase = .dispatched ∧ t.phase = .idle ∧
      Exec (withMemory gpioCore) (irqhandlerAck c) s.sys () t.sys

structure EdgeStep (dual : Bool) (c : Channel) (s : EdgeState) (label : EdgeLabel)
    (t : EdgeState) : Prop where
  moves : Moves dual c s label t
  owed : t.owed = carry c label s.owed s.sys t.sys
  fresh : t.fresh = freshAfter c s t.sys label

structure EdgeStart (dual : Bool) (c : Channel) (s : EdgeState) : Prop where
  present : c.Present dual
  placed : Placed dual s.sys.mem
  phase : s.phase = .idle
  owed : ∀ pin, s.owed pin = false
  fresh : ∀ pin, s.fresh pin = false

/-- While the handler is not running, the interrupt is pending for every pin that is owed. -/
def NoLostEdge (c : Channel) (s : EdgeState) : Prop :=
  s.phase = .idle → (∃ pin, pin < (s.sys.mem.chip c).ngpio ∧ s.owed pin = true) →
    interruptBit c s.sys = true

/-- No pin is fresh when the handler acknowledges the interrupt. -/
def AckSafe (c : Channel) (s : EdgeState) (label : EdgeLabel) : Prop :=
  match label with
  | .ack => ∀ pin, pin < (s.sys.mem.chip c).ngpio → s.fresh pin = false
  | .input _ | .read | .dispatch _ => True

instance (c : Channel) (s : EdgeState) : (label : EdgeLabel) → Decidable (AckSafe c s label)
  | .ack => inferInstanceAs
      (Decidable (∀ pin, pin < (s.sys.mem.chip c).ngpio → s.fresh pin = false))
  | .input _ | .read | .dispatch _ => inferInstanceAs (Decidable True)

structure EdgeInv (dual : Bool) (c : Channel) (s : EdgeState) : Prop where
  placed : Placed dual s.sys.mem
  owed : ∀ pin, s.owed pin = true → high c s.sys pin = true ∧ unmaskedPin c s.sys pin = true
  fresh : s.phase ≠ .idle → ∀ pin, s.fresh pin = true →
    s.owed pin = true ∧ interruptBit c s.sys = true
  idle : NoLostEdge c s
  read : ∀ val, s.phase = .read val → ∀ pin, s.owed pin = true →
    s.fresh pin = true ∨ val.getLsbD pin = true
  dispatched : s.phase = .dispatched → ∀ pin, s.owed pin = true → s.fresh pin = true

variable {dual : Bool} {c : Channel} {s t : EdgeState} {pin : ℕ}

theorem EdgeStart.inv (h : EdgeStart dual c s) : EdgeInv dual c s where
  placed := h.placed
  owed := by simp [h.owed]
  fresh := fun hphase => absurd h.phase hphase
  idle := by simp [NoLostEdge, h.owed]
  read := by simp [h.owed]
  dispatched := by simp [h.owed]

theorem carry_iff {label : EdgeLabel} {old : ℕ → Bool} {u v : Sys GpioRegs} :
    carry c label old u v pin = true ↔ (old pin = true ∨ rises c u v pin = true) ∧
      (high c v pin = true ∧ unmaskedPin c v pin = true) ∧ label.dispatches pin = false := by
  simp only [carry, Bool.and_eq_true, Bool.or_eq_true, Bool.not_eq_true']

/-- Without a change of the pins and masks a pin only leaves when it is handled. -/
theorem carry_same {label : EdgeLabel} {old : ℕ → Bool} {u v : Sys GpioRegs}
    (hpins : v.dev.pins = u.dev.pins) (hmem : v.mem = u.mem)
    (hold : old pin = true → high c u pin = true ∧ unmaskedPin c u pin = true) :
    carry c label old u v pin = (old pin && !label.dispatches pin) := by
  have hhigh : high c v pin = high c u pin := by rw [high, high, hpins]
  have hmask : unmaskedPin c v pin = unmaskedPin c u pin := by rw [unmaskedPin, unmaskedPin, hmem]
  rw [carry, rises, hhigh, hmask]
  cases holdpin : old pin with
  | false => simp
  | true => simp [hold holdpin]

theorem carry_mono {label : EdgeLabel} {old old' : ℕ → Bool} {u v : Sys GpioRegs}
    (hold : old pin = true → old' pin = true) (h : carry c label old u v pin = true) :
    carry c label old' u v pin = true := by
  rw [carry_iff] at h ⊢
  exact ⟨h.1.imp_left hold, h.2⟩

section History

variable {l : List (EdgeLabel × EdgeState)}

/-- A pin is owed at the end of a run if it has risen and since then has stayed unmasked
and high and has not been dispatched. -/
theorem owed_iff (h : EdgeStart dual c s) (hrun : Run (EdgeStep dual c) s l) (pin : ℕ) :
    (finish s l).owed pin = true ↔
      Since (fun s _ t => rises c s.sys t.sys pin = true)
        (fun _ label t => (high c t.sys pin = true ∧ unmaskedPin c t.sys pin = true) ∧
          label.dispatches pin = false) s l := by
  have hstep : ∀ s label t, EdgeStep dual c s label t → (t.owed pin = true ↔
      (s.owed pin = true ∨ rises c s.sys t.sys pin = true) ∧
        (high c t.sys pin = true ∧ unmaskedPin c t.sys pin = true) ∧
          label.dispatches pin = false) := by
    intro s label t hstep
    rw [hstep.owed, carry_iff]
  rw [hrun.since_iff hstep]
  simp [h.owed]

/-- A pin is fresh if all this is so since the handler has read the pins. -/
theorem fresh_iff (h : EdgeStart dual c s) (hrun : Run (EdgeStep dual c) s l) (pin : ℕ) :
    (finish s l).fresh pin = true ↔
      Since (fun s _ t => rises c s.sys t.sys pin = true)
        (fun _ label t => ((high c t.sys pin = true ∧ unmaskedPin c t.sys pin = true) ∧
          label.dispatches pin = false) ∧ label ≠ .read) s l := by
  have hstep : ∀ s label t, EdgeStep dual c s label t → (t.fresh pin = true ↔
      (s.fresh pin = true ∨ rises c s.sys t.sys pin = true) ∧
        ((high c t.sys pin = true ∧ unmaskedPin c t.sys pin = true) ∧
          label.dispatches pin = false) ∧ label ≠ .read) := by
    intro s label t hstep
    rw [hstep.fresh]
    cases label with
    | read => simp [freshAfter]
    | input i => simp [freshAfter, carry_iff]
    | dispatch val => simp [freshAfter, carry_iff]
    | ack => simp [freshAfter, carry_iff]
  rw [hrun.since_iff hstep]
  simp [h.fresh]

end History

/-! One lemma for each kind of step. -/

theorem EdgeInv.input {i : Input} (h : EdgeInv dual c s)
    (hstep : EdgeStep dual c s (.input i) t) : EdgeInv dual c t := by
  obtain ⟨⟨hinput, hphase⟩, howed, hfresh⟩ := hstep
  obtain ⟨hpresent, hsys⟩ := inputStep_iff.mp hinput
  have hkept : interruptBit c s.sys = true → interruptBit c t.sys = true := by
    rw [hsys]
    exact i.after_interruptBit h.placed hpresent
  have hrises : ∀ pin, rises c s.sys t.sys pin = true → interruptBit c t.sys = true := by
    rw [hsys]
    exact fun pin => i.interruptBit_of_rises h.placed hpresent
  have howed_iff : ∀ pin, t.owed pin = carry c (.input i) s.owed s.sys t.sys pin :=
    fun pin => congrFun howed pin
  have hfresh_iff : ∀ pin, t.fresh pin = carry c (.input i) s.fresh s.sys t.sys pin :=
    fun pin => congrFun hfresh pin
  constructor
  · rw [hsys]
    exact i.after_placed h.placed
  · intro pin hpin
    rw [howed_iff] at hpin
    exact (carry_iff.mp hpin).2.1
  · intro hrun pin hpin
    rw [hphase] at hrun
    rw [hfresh_iff] at hpin
    refine ⟨?_, ?_⟩
    · rw [howed_iff]
      exact carry_mono (fun hold => (h.fresh hrun pin hold).1) hpin
    · rcases (carry_iff.mp hpin).1 with hold | hrise
      · exact hkept (h.fresh hrun pin hold).2
      · exact hrises pin hrise
  · rintro hidle ⟨pin, hlt, hpin⟩
    rw [hphase] at hidle
    rw [hsys, i.after_ngpio] at hlt
    rw [howed_iff] at hpin
    rcases (carry_iff.mp hpin).1 with hold | hrise
    · exact hkept (h.idle hidle ⟨pin, hlt, hold⟩)
    · exact hrises pin hrise
  · intro val hread pin hpin
    rw [hphase] at hread
    rw [howed_iff] at hpin
    rw [hfresh_iff]
    obtain ⟨hold | hrise, hstays⟩ := carry_iff.mp hpin
    · rcases h.read val hread pin hold with hfr | hval
      · exact .inl (carry_mono (fun _ => hfr) hpin)
      · exact .inr hval
    · exact .inl (carry_iff.mpr ⟨.inr hrise, hstays⟩)
  · intro hdisp pin hpin
    rw [hphase] at hdisp
    rw [howed_iff] at hpin
    rw [hfresh_iff]
    exact carry_mono (h.dispatched hdisp pin) hpin

theorem EdgeInv.readPins (h : EdgeInv dual c s) (hc : c.Present dual)
    (hstep : EdgeStep dual c s .read t) : EdgeInv dual c t := by
  obtain ⟨⟨hidle, val, hphase, hrun⟩, howed, hfresh⟩ := hstep
  obtain ⟨hval, hsys⟩ := (exec_irqhandlerRead c val).mp hrun
  have howed_eq : ∀ pin, t.owed pin = s.owed pin := by
    intro pin
    rw [howed, hsys]
    exact (carry_same rfl rfl (h.owed pin)).trans (Bool.and_true _)
  constructor
  · rw [hsys]
    exact h.placed
  · intro pin hpin
    rw [howed_eq] at hpin
    rw [hsys]
    exact h.owed pin hpin
  · intro _ pin hpin
    rw [hfresh, freshAfter] at hpin
    exact absurd hpin Bool.false_ne_true
  · intro hphase'
    rw [hphase] at hphase'
    exact Phase.noConfusion hphase'
  · intro val' hphase' pin hpin
    rw [hphase] at hphase'
    obtain rfl := Phase.read.inj hphase'
    rw [howed_eq] at hpin
    obtain ⟨hhigh, hmask⟩ := h.owed pin hpin
    refine .inr ?_
    rw [hval, pendingPins, h.placed c hc, GpioRegs.read_data, BitVec.getLsbD_and,
      Bool.and_eq_true]
    exact ⟨hhigh, hmask⟩
  · intro hphase'
    rw [hphase] at hphase'
    exact Phase.noConfusion hphase'

theorem EdgeInv.dispatchPins {val : BitVec 32} (h : EdgeInv dual c s)
    (hstep : EdgeStep dual c s (.dispatch val) t) : EdgeInv dual c t := by
  obtain ⟨⟨hread, hphase, hrun⟩, howed, hfresh⟩ := hstep
  have hsys := (exec_irqhandlerDispatch c val ()).mp hrun
  have hrunning : s.phase ≠ .idle := by
    rw [hread]
    exact fun hidle => Phase.noConfusion hidle
  have howed_eq : ∀ pin, t.owed pin = (s.owed pin && !val.getLsbD pin) := by
    intro pin
    rw [howed, hsys]
    exact carry_same rfl rfl (h.owed pin)
  have hfresh_eq : ∀ pin, t.fresh pin = (s.fresh pin && !val.getLsbD pin) := by
    intro pin
    rw [hfresh, hsys]
    exact carry_same rfl rfl fun hpin => h.owed pin (h.fresh hrunning pin hpin).1
  constructor
  · rw [hsys]
    exact h.placed
  · intro pin hpin
    rw [howed_eq, Bool.and_eq_true] at hpin
    rw [hsys]
    exact h.owed pin hpin.1
  · intro _ pin hpin
    rw [hfresh_eq, Bool.and_eq_true] at hpin
    obtain ⟨hold, hbit⟩ := h.fresh hrunning pin hpin.1
    refine ⟨?_, ?_⟩
    · rw [howed_eq, hold, hpin.2]
      rfl
    · rw [hsys]
      exact hbit
  · intro hidle
    rw [hphase] at hidle
    exact Phase.noConfusion hidle
  · intro val' hread'
    rw [hphase] at hread'
    exact Phase.noConfusion hread'
  · intro _ pin hpin
    rw [howed_eq, Bool.and_eq_true] at hpin
    -- what was read high has just been dispatched
    have hval : val.getLsbD pin = false := by simpa using hpin.2
    rcases h.read val hread pin hpin.1 with hold | hset
    · rw [hfresh_eq, hold, hval]
      rfl
    · exact absurd (hval.symm.trans hset) Bool.false_ne_true

/-- The acknowledgement toggles the interrupt bit. -/
theorem interruptBit_ack {u v : Sys GpioRegs} (hoffset : (u.mem.chip c).offset = c.offset)
    (h : Exec (withMemory gpioCore) (irqhandlerAck c) u () v) :
    interruptBit c v = !interruptBit c u := by
  rw [exec_irqhandlerAck] at h
  subst h
  simp [interruptBit, channelBit_of_offset hoffset, c.index_lt]

theorem EdgeInv.ackPins (h : EdgeInv dual c s) (hc : c.Present dual)
    (hstep : EdgeStep dual c s .ack t) :
    (NoLostEdge c t ↔ AckSafe c s .ack) ∧ (NoLostEdge c t → EdgeInv dual c t) := by
  obtain ⟨⟨hdisp, hphase, hrun⟩, howed, -⟩ := hstep
  have hbit := interruptBit_ack (h.placed c hc) hrun
  have hsys := (exec_irqhandlerAck c ()).mp hrun
  have hrunning : s.phase ≠ .idle := by
    rw [hdisp]
    exact fun hidle => Phase.noConfusion hidle
  have howed_eq : ∀ pin, t.owed pin = s.owed pin := by
    intro pin
    rw [howed, hsys]
    exact (carry_same rfl rfl (h.owed pin)).trans (Bool.and_true _)
  have hngpio : (t.sys.mem.chip c).ngpio = (s.sys.mem.chip c).ngpio := by rw [hsys]; rfl
  refine ⟨⟨?_, ?_⟩, ?_⟩
  · intro hlost pin hlt
    by_contra hfresh
    obtain ⟨hold, hset⟩ := h.fresh hrunning pin (by simpa using hfresh)
    have hpending := hlost hphase ⟨pin, hngpio ▸ hlt, (howed_eq pin).trans hold⟩
    rw [hbit, hset] at hpending
    exact absurd hpending Bool.false_ne_true
  · rintro hsafe - ⟨pin, hlt, hpin⟩
    rw [howed_eq] at hpin
    rw [hngpio] at hlt
    have hfresh := h.dispatched hdisp pin hpin
    exact absurd ((hsafe pin hlt).symm.trans hfresh) Bool.false_ne_true
  · intro hlost
    constructor
    · rw [hsys]
      exact h.placed
    · intro pin hpin
      rw [howed_eq] at hpin
      rw [hsys]
      exact h.owed pin hpin
    · exact fun hrun => absurd hphase hrun
    · exact hlost
    · intro val hread
      rw [hphase] at hread
      exact Phase.noConfusion hread
    · intro hdisp'
      rw [hphase] at hdisp'
      exact Phase.noConfusion hdisp'

theorem edgeStep_inv {label : EdgeLabel} (h : EdgeInv dual c s) (hc : c.Present dual)
    (hstep : EdgeStep dual c s label t) :
    (NoLostEdge c t ↔ AckSafe c s label) ∧ (NoLostEdge c t → EdgeInv dual c t) := by
  cases label with
  | input i =>
    have hinv := h.input hstep
    exact ⟨iff_of_true hinv.idle trivial, fun _ => hinv⟩
  | read =>
    have hinv := h.readPins hc hstep
    exact ⟨iff_of_true hinv.idle trivial, fun _ => hinv⟩
  | dispatch val =>
    have hinv := h.dispatchPins hstep
    exact ⟨iff_of_true hinv.idle trivial, fun _ => hinv⟩
  | ack => exact h.ackPins hc hstep

/-- In a run no edge is lost exactly if no pin is fresh at any acknowledgement. -/
theorem no_edge_lost_iff (dual : Bool) (c : Channel) (s : EdgeState) (h : EdgeStart dual c s)
    (l : List (EdgeLabel × EdgeState)) (hrun : Run (EdgeStep dual c) s l) :
    Everywhere (fun _ _ t => NoLostEdge c t) s l ↔
      Everywhere (fun s label _ => AckSafe c s label) s l := by
  have hstep : ∀ s label t, EdgeInv dual c s → EdgeStep dual c s label t →
      (NoLostEdge c t ↔ AckSafe c s label) ∧ (NoLostEdge c t → EdgeInv dual c t) :=
    fun _ _ _ hs hstep => edgeStep_inv hs h.present hstep
  exact hrun.everywhere_iff hstep h.inv

end Handler

section Runs

def Enabled (dual : Bool) (s : EdgeState) (label : EdgeLabel) : Prop :=
  match label with
  | .input i => i.channel.Present dual
  | .read => s.phase = .idle
  | .dispatch val => s.phase = .read val
  | .ack => s.phase = .dispatched

instance (dual : Bool) (s : EdgeState) : (label : EdgeLabel) → Decidable (Enabled dual s label)
  | .input i => inferInstanceAs (Decidable (i.channel.Present dual))
  | .read => inferInstanceAs (Decidable (s.phase = .idle))
  | .dispatch val => inferInstanceAs (Decidable (s.phase = .read val))
  | .ack => inferInstanceAs (Decidable (s.phase = .dispatched))

def EdgeLabel.after (c : Channel) (s : Sys GpioRegs) : EdgeLabel → Sys GpioRegs
  | .input i => i.after s
  | .read => s
  | .dispatch val => { s with trace := s.trace ++ irqsOf (s.mem.chip c) val }
  | .ack => s.withDev { s.dev with ipisr := s.dev.ipisr ^^^ (s.mem.chip c).channelBit }

def EdgeState.next (c : Channel) (s : EdgeState) (label : EdgeLabel) : EdgeState where
  sys := label.after c s.sys
  phase := match label with
    | .input _ => s.phase
    | .read => .read (pendingPins s.sys c)
    | .dispatch _ => .dispatched
    | .ack => .idle
  owed := carry c label s.owed s.sys (label.after c s.sys)
  fresh := freshAfter c s (label.after c s.sys) label

theorem edgeStep_next {dual : Bool} {c : Channel} {s : EdgeState} {label : EdgeLabel}
    (h : Enabled dual s label) : EdgeStep dual c s label (s.next c label) where
  moves := by
    cases label with
    | input i => exact ⟨inputStep_iff.mpr ⟨h, rfl⟩, rfl⟩
    | read => exact ⟨h, _, rfl, (exec_irqhandlerRead c _).mpr ⟨rfl, rfl⟩⟩
    | dispatch val => exact ⟨h, rfl, (exec_irqhandlerDispatch c val ()).mpr rfl⟩
    | ack => exact ⟨h, rfl, (exec_irqhandlerAck c ()).mpr rfl⟩
  owed := rfl
  fresh := rfl

def runEdges (c : Channel) (s : EdgeState) : List EdgeLabel → List (EdgeLabel × EdgeState)
  | [] => []
  | label :: rest => (label, s.next c label) :: runEdges c (s.next c label) rest

theorem runEdges_run {dual : Bool} {c : Channel} {s : EdgeState} {labels : List EdgeLabel}
    (h : Everywhere (fun s label _ => Enabled dual s label) s (runEdges c s labels)) :
    Run (EdgeStep dual c) s (runEdges c s labels) := by
  induction labels generalizing s with
  | nil => exact .nil s
  | cons label rest ih => exact .cons (edgeStep_next h.1) (ih h.2)

def edgeStart : EdgeState where
  sys := probed 0
  phase := .idle
  owed := fun _ => false
  fresh := fun _ => false

theorem edgeStart_start : EdgeStart false .first edgeStart where
  present := trivial
  placed := by
    intro c hc
    cases c with
    | first => decide
    | second => exact absurd hc Bool.false_ne_true
  phase := rfl
  owed := fun _ => rfl
  fresh := fun _ => rfl

/-- Pin 0 rises, and while it is handled pin 1 rises and falls again. -/
def shortPulse : List EdgeLabel :=
  [.input (.call (.unmask .first 200)), .input (.call (.unmask .first 201)),
    .input (.pins .first 1), .read, .input (.pins .first 3), .dispatch 1, .input (.pins .first 1),
    .ack]

/-- Pin 1 rises after the pins have been read, and stays high. -/
def lateEdge : List EdgeLabel :=
  [.input (.call (.unmask .first 200)), .input (.call (.unmask .first 201)),
    .input (.pins .first 1), .read, .input (.pins .first 3), .dispatch 1, .ack]

/-- Nothing is lost when the second pin is low again at the acknowledgement. -/
theorem no_edge_lost_shortPulse :
    Everywhere (fun _ _ t => NoLostEdge .first t) edgeStart
      (runEdges .first edgeStart shortPulse) := by
  have henabled : Everywhere (fun s label _ => Enabled false s label) edgeStart
      (runEdges .first edgeStart shortPulse) :=
    ⟨trivial, trivial, trivial, rfl, trivial, by decide, trivial, rfl, trivial⟩
  refine (no_edge_lost_iff false .first edgeStart edgeStart_start _ (runEdges_run henabled)).mpr ?_
  exact ⟨trivial, trivial, trivial, trivial, trivial, trivial, trivial, by decide, trivial⟩

/-- The late edge is lost, although the handler only runs when the interrupt is taken. -/
theorem late_edge_lost : ¬∀ s, EdgeStart false .first s → ∀ l, Run (EdgeStep false .first) s l →
    Everywhere (fun s label _ => label = .read → Taken false s.sys) s l →
    Everywhere (fun _ _ t => NoLostEdge .first t) s l := by
  intro h
  have henabled : Everywhere (fun s label _ => Enabled false s label) edgeStart
      (runEdges .first edgeStart lateEdge) :=
    ⟨trivial, trivial, trivial, rfl, trivial, by decide, rfl, trivial⟩
  have htaken : Everywhere (fun s label _ => label = .read → Taken false s.sys) edgeStart
      (runEdges .first edgeStart lateEdge) :=
    ⟨fun h => EdgeLabel.noConfusion h, fun h => EdgeLabel.noConfusion h,
      fun h => EdgeLabel.noConfusion h, fun _ => ⟨by decide, .first, trivial, by decide⟩,
      fun h => EdgeLabel.noConfusion h, fun h => EdgeLabel.noConfusion h,
      fun h => EdgeLabel.noConfusion h, trivial⟩
  obtain ⟨-, -, -, -, -, -, hack, -⟩ := h _ edgeStart_start _ (runEdges_run henabled) htaken
  exact absurd (hack rfl ⟨1, by decide, by decide⟩) (by decide)

end Runs

end PynqPrio.Gpio
