import PynqPrio.GpioProbe
import Mathlib.Data.List.Nodup

/-!
# Which channels the handler serves

The probe calls `irq_set_handler_data` for both channels of the one parent interrupt, and
the second call replaces the first. So the handler of a device with two channels only ever
looks at the second channel, and a pending interrupt of the first is never acknowledged.
-/
namespace PynqPrio.Gpio
open Programs Programs.Driver Programs.Prog

section Served

/-- The states of a device after a successful probe: the interrupt core masks and unmasks
pins and runs the handler, and the device is free to change the pins and `IPISR`. -/
inductive GpioReached (dt : DeviceTree) : Sys GpioRegs → Prop where
  | probed {s t : Sys GpioRegs} (h : Exec (withMemory gpioCore) (xgpioOfProbe dt) s 0 t) :
      GpioReached dt t
  | call {s t : Sys GpioRegs} {call : IrqCall} (before : GpioReached dt s)
      (h : IrqStep dt.dual s call t) : GpioReached dt t
  | handler {s t : Sys GpioRegs} (before : GpioReached dt s)
      (h : Exec (withMemory gpioCore) (xgpioIrqhandler dt.irq.2) s () t) : GpioReached dt t
  | device {s : Sys GpioRegs} (before : GpioReached dt s) (pins : Channel → BitVec 32)
      (ipisr : BitVec 32) : GpioReached dt (s.withDev { s.dev with pins := pins, ipisr := ipisr })

/-- The `IPISR` bit of a channel is set and enabled. -/
def Pending (c : Channel) (s : Sys GpioRegs) : Prop :=
  s.dev.ipisr.getLsbD c.index = true ∧ s.dev.ipier.getLsbD c.index = true

instance (c : Channel) (s : Sys GpioRegs) : Decidable (Pending c s) :=
  inferInstanceAs (Decidable (_ ∧ _))

/-- The device raises the parent interrupt. -/
def Taken (dual : Bool) (s : Sys GpioRegs) : Prop :=
  s.dev.gier.getLsbD 31 = true ∧ ∃ c : Channel, c.Present dual ∧ Pending c s

/-- The unmasked pins of a channel that are high. -/
def duePins (s : Sys GpioRegs) (c : Channel) : List ℕ :=
  (List.range (s.mem.chip c).ngpio).filter fun pin =>
    (s.dev.pins c).getLsbD pin && (s.mem.chip c).irqEnable.getLsbD pin

/-- The calls of `generic_handle_irq` between two states. -/
def newCalls (s t : Sys GpioRegs) : List Event := t.trace.drop s.trace.length

/-- A channel has been served between two states: of its pins, exactly the due ones have been called. -/
structure ChannelServed (c : Channel) (s t : Sys GpioRegs) : Prop where
  inOrder : ((duePins s c).map fun pin : ℕ => Event.handleIrq ((s.mem.chip c).irqBase + pin)).Sublist
    (newCalls s t)
  once : ∀ pin ∈ duePins s c,
    (newCalls s t).count (.handleIrq ((s.mem.chip c).irqBase + (pin : ℕ))) = 1
  only : ∀ pin < (s.mem.chip c).ngpio,
    Event.handleIrq ((s.mem.chip c).irqBase + (pin : ℕ)) ∈ newCalls s t → pin ∈ duePins s c
  number : ∀ pin ∈ duePins s c,
    xgpioToIrq (s.mem.chip c) pin = (s.mem.chip c).irqBase + (pin : ℕ)
  cleared : t.dev.ipisr.getLsbD c.index = false

/-- All pending channels have been served, and no bit of `IPISR` has been set. -/
structure Served (dual : Bool) (s t : Sys GpioRegs) : Prop where
  channel : ∀ c : Channel, c.Present dual → Pending c s → ChannelServed c s t
  kept : ∀ i, s.dev.ipisr.getLsbD i = false → t.dev.ipisr.getLsbD i = false

variable {dt : DeviceTree} {dual : Bool} {s t : Sys GpioRegs} {c : Channel}

theorem IrqCall.preserves (call : IrqCall) : Preserves GpioMem.wiring call.prog := by
  cases call with
  | mask c irq => exact preserves_irqMask c irq
  | unmask c irq => exact preserves_irqUnmask c irq

/-- The wiring of the probe stays. -/
theorem GpioReached.wired (h : GpioReached dt s) (hirq : dt.irq.1 ≠ 0) :
    Wired dt.dual dt.irq.2 s.mem.wiring := by
  induction h with
  | probed hprobe => exact wired_of_probe hirq hprobe
  | call _ hstep ih =>
    rw [(IrqCall.preserves _).exec hstep.2]
    exact ih
  | handler _ hrun ih =>
    obtain rfl := (exec_irqhandler ih.handlerData ()).mp hrun
    exact ih
  | device _ pins ipisr ih => exact ih

/-- The handler calls the unmasked high pins. -/
theorem setBits_pendingPins (hoffset : (s.mem.chip c).offset = c.offset) :
    setBits (pendingPins s c) (s.mem.chip c).ngpio = duePins s c := by
  rw [setBits, pendingPins, hoffset, GpioRegs.read_data]
  exact List.filter_congr fun pin _ => BitVec.getLsbD_and

theorem newCalls_handled (hoffset : (s.mem.chip c).offset = c.offset) :
    newCalls s (handled c s) =
      (duePins s c).map fun pin : ℕ => .handleIrq ((s.mem.chip c).irqBase + pin) := by
  rw [newCalls, handled, List.drop_left, irqsOf, setBits_pendingPins hoffset]

/-- The acknowledgement toggles the bit of one channel. -/
theorem handled_ipisr (hoffset : (s.mem.chip c).offset = c.offset) (i : ℕ) (hi : i < 32) :
    (handled c s).dev.ipisr.getLsbD i = (s.dev.ipisr.getLsbD i ^^ decide (c.index = i)) := by
  simp [handled, channelBit_of_offset hoffset, hi, eq_comm]

theorem handleIrq_injective (base : ℤ) : Function.Injective fun pin : ℕ => Event.handleIrq (base + pin) := by
  intro p q hpq
  exact Int.ofNat_inj.mp (Int.add_left_cancel (Event.handleIrq.inj hpq))

theorem served_handled (hready : (s.mem.chip c).wiring.Ready c) (hpending : Pending c s) :
    ChannelServed c s (handled c s) where
  inOrder := by rw [newCalls_handled hready.offset]
  once := by
    intro pin hpin
    have hnodup : (duePins s c).Nodup := List.nodup_range.filter _
    rw [newCalls_handled hready.offset]
    exact List.count_eq_one_of_mem (hnodup.map (handleIrq_injective _)) (List.mem_map_of_mem hpin)
  only := by
    intro pin _ hcall
    rw [newCalls_handled hready.offset] at hcall
    obtain ⟨pin', hdue, hsame⟩ := List.mem_map.mp hcall
    exact handleIrq_injective _ hsame ▸ hdue
  number := by
    intro pin hpin
    have hlt : pin < (s.mem.chip c).ngpio := List.mem_range.mp (List.mem_filter.mp hpin).1
    exact toIrq_of_ready hready hlt
  cleared := by
    rw [handled_ipisr hready.offset _ c.index_lt, hpending.1]
    simp

/-- One run of the handler serves the device exactly if the channel of its data is the
only one pending. -/
theorem served_handled_iff (hready : (s.mem.chip c).wiring.Ready c) (htaken : Taken dual s) :
    Served dual s (handled c s) ↔ ∀ c' : Channel, c'.Present dual → Pending c' s → c' = c := by
  have hbit := handled_ipisr (s := s) hready.offset
  constructor
  · intro h c' hpresent hpending
    have hclear := (h.channel c' hpresent hpending).cleared
    rw [hbit _ c'.index_lt, hpending.1] at hclear
    exact (Channel.index_inj.mp (by simpa using hclear)).symm
  · intro honly
    obtain ⟨-, c', hpresent, hpending⟩ := htaken
    obtain rfl := honly c' hpresent hpending
    constructor
    · intro c hc hpend
      obtain rfl := honly c hc hpend
      exact served_handled hready hpend
    · intro i hi
      by_cases hlt : i < 32
      · have hne : c'.index ≠ i := by
          rintro rfl
          exact absurd (hi.symm.trans hpending.1) Bool.false_ne_true
        rw [hbit i hlt, hi]
        simp [hne]
      · exact BitVec.getLsbD_of_ge _ _ (Nat.le_of_not_lt hlt)

theorem only_lastChannel (htaken : Taken dual s) :
    (∀ c : Channel, c.Present dual → Pending c s → c = lastChannel dual) ↔
      dual = false ∨ ¬Pending .first s := by
  cases dual with
  | false =>
    refine iff_of_true ?_ (.inl rfl)
    intro c hc _
    cases c with
    | first => rfl
    | second => exact absurd hc Bool.false_ne_true
  | true =>
    constructor
    · intro honly
      refine .inr fun hpending => ?_
      exact Channel.noConfusion (honly .first trivial hpending)
    · rintro (hdual | hfirst) c _ hpending
      · exact absurd hdual.symm Bool.false_ne_true
      · cases c with
        | first => exact absurd hpending hfirst
        | second => rfl

/-- When the parent interrupt is taken, the one run of the handler serves all pending
channels exactly if the device has one channel or nothing is pending for the first. -/
theorem handler_serves_iff (dt : DeviceTree) (hirq : dt.irq.1 ≠ 0) (s : Sys GpioRegs)
    (h : GpioReached dt s) (htaken : Taken dt.dual s) :
    s.mem.chainedHandler dt.irq.2 = true ∧
    ∃ t, (∀ u, Exec (withMemory gpioCore) (xgpioIrqhandler dt.irq.2) s () u ↔ u = t) ∧
      (Served dt.dual s t ↔ dt.dual = false ∨ ¬Pending .first s) := by
  have hwired := h.wired hirq
  have hpresent : (lastChannel dt.dual).Present dt.dual := by
    cases dt.dual with
    | false => trivial
    | true => rfl
  refine ⟨hwired.chainedHandler, handled (lastChannel dt.dual) s, fun u => ?_, ?_⟩
  · exact exec_irqhandler hwired.handlerData ()
  · rw [served_handled_iff (hwired.ready _ hpresent) htaken]
    exact only_lastChannel htaken

end Served

section Runs

/-- A device before the probe, with interrupts disabled. -/
def blank : Sys GpioRegs where
  mem :=
    { chip := fun _ => .zero
      drvdata := none
      handlerData := fun _ => none
      chainedHandler := fun _ => false
      chipData := fun _ => none
      registered := fun _ => false
      clkPrepared := 0
      clkEnabled := 0
      pmEnabled := false
      pmActive := false
      pmUsage := 0
      pmIdle := false }
  trace := []
  dev :=
    { pins := fun _ => 0
      data := fun _ => 0
      tri := fun _ => 0
      gier := 0
      ipisr := 0
      ipier := 0 }

/-- Two pins in the first channel and, on a dual device, one in the second. -/
def treeOf (dual : BitVec 32) : DeviceTree where
  doutDefault := none
  triDefault := none
  noInit := false
  gpioWidth := some 2
  isDual := some dual
  doutDefault2 := none
  triDefault2 := none
  gpio2Width := some 1
  irq := (60, 60)

/-- All kernel functions succeed, and the channels get the interrupts from 200 and 100 on. -/
def willing (_ : GpioRegs) : Port → Kernel
  | .irqAllocDescs _ cnt => ⟨true, none, 100 * cnt⟩
  | _ => ⟨true, none, 0⟩

def probed (dual : BitVec 32) : Sys GpioRegs :=
  ((run (onDevice GpioRegs.answer willing) 1 (xgpioOfProbe (treeOf dual)) blank).getD (0, blank)).2

/-- Pin 0 of the first channel is unmasked and rises. -/
def risen (dual : BitVec 32) : Sys GpioRegs :=
  let s := unmasked .first 200 (probed dual)
  s.withDev { s.dev with pins := fun _ => 1, ipisr := 1 }

theorem reached_probed {dual : BitVec 32}
    (h : run (onDevice GpioRegs.answer willing) 1 (xgpioOfProbe (treeOf dual)) blank =
      some (0, probed dual)) : GpioReached (treeOf dual) (probed dual) :=
  .probed ((onDevice_refines GpioRegs.answer willing).exec _ ((watch_sound _ _).1 _ _ h))

theorem reached_risen {dual : BitVec 32} (h : GpioReached (treeOf dual) (probed dual)) :
    GpioReached (treeOf dual) (risen dual) := by
  have hcall : IrqStep (treeOf dual).dual (probed dual) (.unmask .first 200)
      (unmasked .first 200 (probed dual)) := ⟨trivial, (exec_irqUnmask _ _ _).mpr rfl⟩
  exact .device (.call h hcall) (fun _ => 1) 1

/-- The rising pin of a device with one channel is served. -/
theorem handler_serves_single : Served false (risen 0) (handled .first (risen 0)) := by
  have htaken : Taken (treeOf 0).dual (risen 0) := ⟨by decide, .first, trivial, by decide⟩
  obtain ⟨-, t, ht, hserved⟩ :=
    handler_serves_iff (treeOf 0) (by decide) (risen 0) (reached_risen (reached_probed rfl)) htaken
  have hdata : (risen 0).mem.handlerData 60 = some .first := by decide
  obtain rfl := (ht _).mp ((exec_irqhandler hdata ()).mpr rfl)
  exact hserved.mpr (.inl (by decide))

/-- On a device with two channels it is not. -/
theorem first_channel_unserved : ¬∀ dt : DeviceTree, dt.irq.1 ≠ 0 → ∀ s, GpioReached dt s →
    Taken dt.dual s → ∀ t, Exec (withMemory gpioCore) (xgpioIrqhandler dt.irq.2) s () t →
    Served dt.dual s t := by
  intro h
  have hpending : Pending .first (risen 1) := by decide
  have hdata : (risen 1).mem.handlerData 60 = some .second := by decide
  have hserved := h (treeOf 1) (by decide) (risen 1) (reached_risen (reached_probed rfl))
    ⟨by decide, .first, trivial, hpending⟩ _ ((exec_irqhandler hdata ()).mpr rfl)
  exact absurd (hserved.channel .first trivial hpending).cleared (by decide)

end Runs

end PynqPrio.Gpio
