import PynqPrio.GpioDispatch
import PynqPrio.GpioInputs
import PynqPrio.LabelledRuns

/-!
# Levels for edges

`xgpio_set_irq_type` is to accept rising edges only, but it tests a single bit of the type.
And the handler calls every unmasked pin that is high, whether it has risen or has merely
stayed high while another pin changed.
-/
namespace PynqPrio.Gpio
open Programs Programs.Driver Programs.Prog

section Edges

/-- The steps of the system; the handler runs as one step. -/
inductive RisingLabel where
  | input (i : Input)
  | handler

/-- The system with the history of its pins: whether a pin has risen, and whether it has
been low, since the handler was last called or the pin was unmasked. -/
structure RisingState where
  sys : Sys GpioRegs
  rose : ℕ → Bool
  wasLow : ℕ → Bool

/-- The history of a pin begins anew. -/
def RisingLabel.restarts (c : Channel) (s t : Sys GpioRegs) (pin : ℕ) : RisingLabel → Bool
  | .handler => true
  | .input _ => !unmaskedPin c s pin && unmaskedPin c t pin

/-- A step of the system, with the handler of the interrupt `irq`, which is for channel `c`. -/
structure RisingStep (dual : Bool) (irq : ℕ) (c : Channel) (s : RisingState) (label : RisingLabel)
    (t : RisingState) : Prop where
  moves : match label with
    | .input i => InputStep dual s.sys i t.sys
    | .handler => Exec (withMemory gpioCore) (xgpioIrqhandler irq) s.sys () t.sys
  rose : ∀ pin, t.rose pin =
    ((s.rose pin || rises c s.sys t.sys pin) && !label.restarts c s.sys t.sys pin)
  wasLow : ∀ pin, t.wasLow pin =
    ((s.wasLow pin || !high c t.sys pin) &&
      (!label.restarts c s.sys t.sys pin || !high c t.sys pin))

structure RisingStart (dual : Bool) (irq : ℕ) (s : RisingState) : Prop where
  wired : Wired dual irq s.sys.mem.wiring
  rose : ∀ pin, s.rose pin = false
  wasLow : ∀ pin, s.wasLow pin = !high (lastChannel dual) s.sys pin

/-- The handler only calls pins that are unmasked and have risen. -/
def RisingOnly (c : Channel) (s : RisingState) (label : RisingLabel) (t : RisingState) : Prop :=
  match label with
  | .handler => ∀ pin : ℕ, .handleIrq ((s.sys.mem.chip c).irqBase + pin) ∈ newCalls s.sys t.sys →
      unmaskedPin c s.sys pin = true ∧ s.rose pin = true
  | .input _ => True

/-- When the handler is called, every unmasked pin that is high has been low. -/
def NoneStaysHigh (c : Channel) (s : RisingState) (label : RisingLabel) : Prop :=
  match label with
  | .handler => ∀ pin, pin < (s.sys.mem.chip c).ngpio → unmaskedPin c s.sys pin = true →
      high c s.sys pin = true → s.wasLow pin = true
  | .input _ => True

instance (c : Channel) (s : RisingState) : (label : RisingLabel) →
    Decidable (NoneStaysHigh c s label)
  | .handler => inferInstanceAs (Decidable (∀ pin, pin < (s.sys.mem.chip c).ngpio →
      unmaskedPin c s.sys pin = true → high c s.sys pin = true → s.wasLow pin = true))
  | .input _ => inferInstanceAs (Decidable True)

/-- The pins that are low have been low, and those that are high have risen if they have. -/
structure RisingInv (dual : Bool) (irq : ℕ) (c : Channel) (s : RisingState) : Prop where
  wired : Wired dual irq s.sys.mem.wiring
  low : ∀ pin, high c s.sys pin = false → s.wasLow pin = true
  high : ∀ pin, high c s.sys pin = true → s.rose pin = s.wasLow pin

variable {dual : Bool} {irq : ℕ} {c : Channel} {s t : RisingState} {label : RisingLabel}

theorem RisingStart.inv (h : RisingStart dual irq s) : RisingInv dual irq (lastChannel dual) s where
  wired := h.wired
  low := by
    intro pin hlow
    rw [h.wasLow, hlow]
    rfl
  high := by
    intro pin hhigh
    rw [h.rose, h.wasLow, hhigh]
    rfl

section History

variable {l : List (RisingLabel × RisingState)}

/-- A pin rose if it has risen and its history has not begun anew since. -/
theorem rose_iff (h : RisingStart dual irq s) (hrun : Run (RisingStep dual irq c) s l) (pin : ℕ) :
    (finish s l).rose pin = true ↔
      Since (fun s _ t => rises c s.sys t.sys pin = true)
        (fun s label t => label.restarts c s.sys t.sys pin = false) s l := by
  have hstep : ∀ s label t, RisingStep dual irq c s label t → (t.rose pin = true ↔
      (s.rose pin = true ∨ rises c s.sys t.sys pin = true) ∧
        label.restarts c s.sys t.sys pin = false) := by
    intro s label t hstep
    simp [hstep.rose]
  rw [hrun.since_iff hstep]
  simp [h.rose]

/-- A pin was low if it was so at the start or after a later step, and its history has not
begun anew since, or has begun while the pin was low. -/
theorem wasLow_iff (hrun : Run (RisingStep dual irq c) s l) (pin : ℕ) :
    (finish s l).wasLow pin = true ↔
      (s.wasLow pin = true ∧ Everywhere (fun s label t =>
        label.restarts c s.sys t.sys pin = false ∨ high c t.sys pin = false) s l) ∨
      Since (fun _ _ t => high c t.sys pin = false)
        (fun s label t => label.restarts c s.sys t.sys pin = false ∨ high c t.sys pin = false)
        s l := by
  have hstep : ∀ s label t, RisingStep dual irq c s label t → (t.wasLow pin = true ↔
      (s.wasLow pin = true ∨ high c t.sys pin = false) ∧
        (label.restarts c s.sys t.sys pin = false ∨ high c t.sys pin = false)) := by
    intro s label t hstep
    simp [hstep.wasLow]
  exact hrun.since_iff hstep

end History

/-- The histories agree again after a step. -/
theorem rising_histories (hstep : RisingStep dual irq c s label t)
    (hlow : ∀ pin, high c s.sys pin = false → s.wasLow pin = true)
    (hhigh : ∀ pin, high c s.sys pin = true → s.rose pin = s.wasLow pin) (pin : ℕ) :
    (high c t.sys pin = false → t.wasLow pin = true) ∧
      (high c t.sys pin = true → t.rose pin = t.wasLow pin) := by
  constructor
  · intro ht
    rw [hstep.wasLow, ht]
    simp
  · intro ht
    rw [hstep.rose, hstep.wasLow, rises, ht]
    cases hs : high c s.sys pin with
    | false => simp [hlow pin hs]
    | true => simp [hhigh pin hs]

theorem mem_newCalls {u : Sys GpioRegs} (hoffset : (u.mem.chip c).offset = c.offset) (pin : ℕ) :
    .handleIrq ((u.mem.chip c).irqBase + pin) ∈ newCalls u (handled c u) ↔
      pin < (u.mem.chip c).ngpio ∧ high c u pin = true ∧ unmaskedPin c u pin = true := by
  rw [newCalls_handled hoffset, duePins]
  simp only [List.mem_map, List.mem_filter, List.mem_range, Bool.and_eq_true]
  constructor
  · rintro ⟨pin', hpin', heq⟩
    obtain rfl := Int.ofNat_inj.mp (Int.add_left_cancel (Event.handleIrq.inj heq))
    exact hpin'
  · exact fun hpin => ⟨pin, hpin, rfl⟩

theorem present_lastChannel (dual : Bool) : (lastChannel dual).Present dual := by
  cases dual with
  | false => trivial
  | true => rfl

theorem risingStep_inv (h : RisingInv dual irq (lastChannel dual) s)
    (hstep : RisingStep dual irq (lastChannel dual) s label t) :
    (RisingOnly (lastChannel dual) s label t ↔ NoneStaysHigh (lastChannel dual) s label) ∧
      RisingInv dual irq (lastChannel dual) t := by
  have hhist := rising_histories hstep h.low h.high
  have hmoves := hstep.moves
  cases label with
  | input i =>
    obtain ⟨-, hsys⟩ := inputStep_iff.mp hmoves
    refine ⟨Iff.rfl, ⟨?_, fun pin => (hhist pin).1, fun pin => (hhist pin).2⟩⟩
    rw [hsys, i.after_wiring]
    exact h.wired
  | handler =>
    have hsys := (exec_irqhandler h.wired.handlerData ()).mp hmoves
    have hoffset := h.wired.placed _ (present_lastChannel dual)
    refine ⟨?_, ⟨?_, fun pin => (hhist pin).1, fun pin => (hhist pin).2⟩⟩
    · simp only [RisingOnly, NoneStaysHigh, hsys, mem_newCalls hoffset]
      refine forall_congr' fun pin => ?_
      constructor
      · intro hrose hlt hmask hhigh
        rw [← h.high pin hhigh]
        exact (hrose ⟨hlt, hhigh, hmask⟩).2
      · rintro hlow ⟨hlt, hhigh, hmask⟩
        rw [h.high pin hhigh]
        exact ⟨hmask, hlow hlt hmask hhigh⟩
    · rw [hsys]
      exact h.wired

theorem setIrqType_iff (type : BitVec 32) :
    xgpioSetIrqType type = 0 ↔ type &&& irqTypeEdgeRising ≠ 0 := by
  rw [xgpioSetIrqType]
  split
  · exact iff_of_true rfl ‹_›
  · exact iff_of_false (by decide) ‹_›

/-- A type is treated as it is to be exactly if it lacks the bit or is the rising edge
itself, and a run calls only pins that have risen exactly if no unmasked pin stays high from
one call of the handler to the next. -/
theorem rising_edges_iff (type : BitVec 32) (dual : Bool) (irq : ℕ) (s : RisingState)
    (h : RisingStart dual irq s) (l : List (RisingLabel × RisingState))
    (hrun : Run (RisingStep dual irq (lastChannel dual)) s l) :
    ((xgpioSetIrqType type = 0 ↔ type = irqTypeEdgeRising) ↔
      type &&& irqTypeEdgeRising = 0 ∨ type = irqTypeEdgeRising) ∧
    (Everywhere (fun s label t => RisingOnly (lastChannel dual) s label t) s l ↔
      Everywhere (fun s label _ => NoneStaysHigh (lastChannel dual) s label) s l) := by
  constructor
  · rw [setIrqType_iff]
    by_cases htype : type = irqTypeEdgeRising
    · subst htype
      exact iff_of_true (iff_of_true (by decide) rfl) (.inr rfl)
    · simp only [htype, iff_false, or_false, not_not]
  · have hstep : ∀ s label t, RisingInv dual irq (lastChannel dual) s →
        RisingStep dual irq (lastChannel dual) s label t →
        (RisingOnly (lastChannel dual) s label t ↔ NoneStaysHigh (lastChannel dual) s label) ∧
          (RisingOnly (lastChannel dual) s label t → RisingInv dual irq (lastChannel dual) t) := by
      intro s label t hinv hstep
      obtain ⟨hiff, ht⟩ := risingStep_inv hinv hstep
      exact ⟨hiff, fun _ => ht⟩
    exact hrun.everywhere_iff hstep h.inv

end Edges

section Runs

def Callable (dual : Bool) (irq : ℕ) (c : Channel) (s : RisingState) (label : RisingLabel) : Prop :=
  match label with
  | .input i => i.channel.Present dual
  | .handler => s.sys.mem.handlerData irq = some c

def RisingLabel.after (c : Channel) (s : Sys GpioRegs) : RisingLabel → Sys GpioRegs
  | .input i => i.after s
  | .handler => handled c s

def RisingState.next (c : Channel) (s : RisingState) (label : RisingLabel) : RisingState where
  sys := label.after c s.sys
  rose := fun pin => (s.rose pin || rises c s.sys (label.after c s.sys) pin) &&
    !label.restarts c s.sys (label.after c s.sys) pin
  wasLow := fun pin => (s.wasLow pin || !high c (label.after c s.sys) pin) &&
    (!label.restarts c s.sys (label.after c s.sys) pin || !high c (label.after c s.sys) pin)

theorem risingStep_next {dual : Bool} {irq : ℕ} {c : Channel} {s : RisingState}
    {label : RisingLabel} (h : Callable dual irq c s label) :
    RisingStep dual irq c s label (s.next c label) where
  moves := by
    cases label with
    | input i => exact inputStep_iff.mpr ⟨h, rfl⟩
    | handler => exact (exec_irqhandler h ()).mpr rfl
  rose := fun _ => rfl
  wasLow := fun _ => rfl

def runRising (c : Channel) (s : RisingState) : List RisingLabel → List (RisingLabel × RisingState)
  | [] => []
  | label :: rest => (label, s.next c label) :: runRising c (s.next c label) rest

theorem runRising_run {dual : Bool} {irq : ℕ} {c : Channel} {s : RisingState}
    {labels : List RisingLabel}
    (h : Everywhere (fun s label _ => Callable dual irq c s label) s (runRising c s labels)) :
    Run (RisingStep dual irq c) s (runRising c s labels) := by
  induction labels generalizing s with
  | nil => exact .nil s
  | cons label rest ih => exact .cons (risingStep_next h.1) (ih h.2)

def risingStart : RisingState where
  sys := probed 0
  rose := fun _ => false
  wasLow := fun pin => !high .first (probed 0) pin

theorem risingStart_start : RisingStart false 60 risingStart where
  wired := by
    have hprobed : GpioReached (treeOf 0) (probed 0) := reached_probed rfl
    exact hprobed.wired (by decide)
  rose := fun _ => rfl
  wasLow := fun _ => rfl

/-- Pin 0 rises, falls and rises again. -/
def twoPulses : List RisingLabel :=
  [.input (.call (.unmask .first 200)), .input (.pins .first 1), .handler, .input (.pins .first 0),
    .input (.pins .first 1), .handler]

/-- Pin 1 rises while pin 0 stays high. -/
def highAndRising : List RisingLabel :=
  [.input (.call (.unmask .first 200)), .input (.call (.unmask .first 201)),
    .input (.pins .first 1), .handler, .input (.pins .first 3), .handler]

/-- The rising edge is accepted, and of a pin that falls in between every call is for an edge. -/
theorem rising_edges_twoPulses : xgpioSetIrqType irqTypeEdgeRising = 0 ∧
    Everywhere (fun s label t => RisingOnly .first s label t)
      risingStart (runRising .first risingStart twoPulses) := by
  have hcallable : Everywhere (fun s label _ => Callable false 60 .first s label) risingStart
      (runRising .first risingStart twoPulses) :=
    ⟨trivial, trivial, rfl, trivial, trivial, rfl, trivial⟩
  obtain ⟨htype, hedges⟩ := rising_edges_iff irqTypeEdgeRising false 60 risingStart
    risingStart_start _ (runRising_run hcallable)
  refine ⟨(htype.mpr (.inr rfl)).mpr rfl, hedges.mpr ?_⟩
  exact ⟨trivial, trivial, by decide, trivial, trivial, by decide, trivial⟩

/-- Both edges are accepted as a type, and a pin that stays high is called again. -/
theorem high_pin_called_again : xgpioSetIrqType irqTypeEdgeBoth = 0 ∧
    ¬∀ s, RisingStart false 60 s → ∀ l, Run (RisingStep false 60 .first) s l →
      Everywhere (fun s label _ => label = .handler → Taken false s.sys) s l →
      Everywhere (fun s label t => RisingOnly .first s label t) s l := by
  refine ⟨by decide, fun h => ?_⟩
  have hcallable : Everywhere (fun s label _ => Callable false 60 .first s label) risingStart
      (runRising .first risingStart highAndRising) :=
    ⟨trivial, trivial, trivial, rfl, trivial, rfl, trivial⟩
  have htaken : Everywhere (fun s label _ => label = .handler → Taken false s.sys) risingStart
      (runRising .first risingStart highAndRising) :=
    ⟨fun h => RisingLabel.noConfusion h, fun h => RisingLabel.noConfusion h,
      fun h => RisingLabel.noConfusion h, fun _ => ⟨by decide, .first, trivial, by decide⟩,
      fun h => RisingLabel.noConfusion h, fun _ => ⟨by decide, .first, trivial, by decide⟩, trivial⟩
  obtain ⟨-, -, -, -, -, hcalled, -⟩ := h _ risingStart_start _ (runRising_run hcallable) htaken
  exact absurd (hcalled 0 (by decide)).2 (by decide)

end Runs

end PynqPrio.Gpio
