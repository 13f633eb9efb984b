import PynqPrio.GpioRules
import PynqPrio.LabelledRuns

/-!
# The interrupt enables

`IPIER` and `GIER` are to follow the `irq_enable` fields of the channels. When the last
pin of a channel is masked, `xgpio_irq_mask` keeps the enable bit of that channel and
clears all others.
-/
namespace PynqPrio.Gpio
open Programs Programs.Driver Programs.Prog

section Enables

structure IrqsOff (dual : Bool) (s : Sys GpioRegs) : Prop where
  placed : Placed dual s.mem
  irqEnable : ∀ c, (s.mem.chip c).irqEnable = 0
  ipier : s.dev.ipier = 0
  gier : s.dev.gier = 0

/-- The registers enable exactly the channels that have an unmasked pin. -/
structure EnablesFollow (s : Sys GpioRegs) : Prop where
  channel : ∀ c : Channel, s.dev.ipier.getLsbD c.index = true ↔ (s.mem.chip c).irqEnable ≠ 0
  any : s.dev.gier.getLsbD 31 = true ↔ ∃ c, (s.mem.chip c).irqEnable ≠ 0

/-- The call leaves an unmasked pin in its channel, or all pins of both channels have been
masked before. -/
def MaskSafe (s : Sys GpioRegs) (call : IrqCall) (_ : Sys GpioRegs) : Prop :=
  match call with
  | .mask c irq =>
    (s.mem.chip c).irqEnable &&& ~~~bit (u32 (irq - (s.mem.chip c).irqBase)) ≠ 0 ∨
      ∀ c', (s.mem.chip c').irqEnable = 0
  | .unmask .. => True

variable {dual : Bool} {s t : Sys GpioRegs} {c : Channel} {irq : ℤ}

theorem IrqsOff.follow (h : IrqsOff dual s) : EnablesFollow s := by
  constructor
  · intro c
    simp [h.ipier, h.irqEnable]
  · simp [h.gier, h.irqEnable]

/-- What the pins of a channel enable after the mask call. -/
def leftEnabled (s : Sys GpioRegs) (c : Channel) (irq : ℤ) : BitVec 32 :=
  (s.mem.chip c).irqEnable &&& ~~~bit (u32 (irq - (s.mem.chip c).irqBase))

theorem masked_irqEnable (c' : Channel) : ((masked c irq s).mem.chip c').irqEnable =
    if c' = c then leftEnabled s c irq else (s.mem.chip c').irqEnable := by
  by_cases hne : c' = c
  · subst hne
    simp [masked, leftEnabled]
  · rw [if_neg hne, masked, GpioMem.update_of_ne _ _ hne]

theorem masked_dev_of_left (h : leftEnabled s c irq ≠ 0) : (masked c irq s).dev = s.dev :=
  if_pos h

theorem masked_dev_of_last (h : leftEnabled s c irq = 0) :
    (masked c irq s).dev = { s.dev with
      ipier := s.dev.ipier &&& (s.mem.chip c).channelBit
      gier := if s.dev.ipier &&& (s.mem.chip c).channelBit = 0 then ~~~gierIe else s.dev.gier } :=
  if_neg (not_not_intro h)

theorem getLsbD_channelBit (hc : (s.mem.chip c).offset = c.offset) (c' : Channel) :
    (s.mem.chip c).channelBit.getLsbD c'.index = decide (c = c') := by
  rw [channelBit_of_offset hc, BitVec.getLsbD_twoPow]
  simp [c.index_lt, Channel.index_inj]

/-- Masking keeps the registers right exactly where it does not end the last enable. -/
theorem masked_follow (h : EnablesFollow s) (hc : (s.mem.chip c).offset = c.offset) :
    EnablesFollow (masked c irq s) ↔ MaskSafe s (.mask c irq) (masked c irq s) := by
  by_cases hleft : leftEnabled s c irq = 0
  · have hdev := masked_dev_of_last hleft
    constructor
    · intro ht
      refine .inr fun c' => ?_
      have hbit := ht.channel c'
      rw [hdev, masked_irqEnable] at hbit
      simp only [BitVec.getLsbD_and, getLsbD_channelBit hc] at hbit
      by_cases hcc : c' = c
      · subst hcc
        -- its own bit has been kept, so it was clear before
        rw [if_pos rfl] at hbit
        have hclear : ¬s.dev.ipier.getLsbD c'.index = true := by simpa [hleft] using hbit
        exact not_not.mp ((h.channel c').not.mp hclear)
      · rw [if_neg hcc] at hbit
        exact not_not.mp (hbit.not.mp (by simp [Ne.symm hcc]))
    · rintro (hne | hall)
      · exact absurd hleft hne
      · have hzero : ∀ c', ((masked c irq s).mem.chip c').irqEnable = 0 := by
          intro c'
          rw [masked_irqEnable, hleft, hall, ite_self]
        have hgier : s.dev.gier.getLsbD 31 = false := by
          simpa [hall] using h.any
        constructor
        · intro c'
          have hclear : s.dev.ipier.getLsbD c'.index = false := by
            simpa [hall] using h.channel c'
          rw [hdev, hzero]
          simp [hclear]
        · rw [hdev]
          refine iff_of_false ?_ (by simp [hzero])
          dsimp only
          split
          · decide
          · rw [hgier]
            decide
  · have hdev := masked_dev_of_left hleft
    have henable : (s.mem.chip c).irqEnable ≠ 0 := by
      intro hzero
      exact hleft (by simp [leftEnabled, hzero])
    refine iff_of_true ⟨fun c' => ?_, ?_⟩ (.inl hleft)
    · rw [hdev, masked_irqEnable, h.channel]
      by_cases hcc : c' = c
      · subst hcc
        rw [if_pos rfl]
        exact iff_of_true henable hleft
      · rw [if_neg hcc]
    · rw [hdev, h.any]
      refine iff_of_true ⟨c, henable⟩ ⟨c, ?_⟩
      rwa [masked_irqEnable, if_pos rfl]

theorem unmasked_irqEnable (c' : Channel) : ((unmasked c irq s).mem.chip c').irqEnable =
    if c' = c then (s.mem.chip c).irqEnable ||| bit (u32 (irq - (s.mem.chip c).irqBase))
    else (s.mem.chip c').irqEnable := by
  by_cases hne : c' = c
  · subst hne
    simp [unmasked]
  · rw [if_neg hne, unmasked, GpioMem.update_of_ne _ _ hne, GpioMem.update_of_ne _ _ hne]

/-- Unmasking keeps the registers right. -/
theorem unmasked_follow (h : EnablesFollow s) (hc : (s.mem.chip c).offset = c.offset) :
    EnablesFollow (unmasked c irq s) := by
  by_cases hzero : (s.mem.chip c).irqEnable ||| bit (u32 (irq - (s.mem.chip c).irqBase)) = 0
  · have hdev : (unmasked c irq s).dev.ipier = s.dev.ipier ∧
        (unmasked c irq s).dev.gier = s.dev.gier := by
      simp only [unmasked, if_pos hzero, hc, GpioRegs.write_tri, and_self]
    have hsame : ∀ c', ((unmasked c irq s).mem.chip c').irqEnable = (s.mem.chip c').irqEnable := by
      intro c'
      rw [unmasked_irqEnable, hzero]
      split
      · subst c'
        exact (BitVec.or_eq_zero_iff.mp hzero).1.symm
      · rfl
    refine ⟨fun c' => ?_, ?_⟩
    · rw [hdev.1, hsame, h.channel]
    · simp only [hdev.2, hsame, h.any]
  · have hdev : (unmasked c irq s).dev.ipier = s.dev.ipier ||| (s.mem.chip c).channelBit ∧
        (unmasked c irq s).dev.gier = gierIe := by
      simp only [unmasked, if_neg hzero, hc, GpioRegs.write_tri, and_self]
    refine ⟨fun c' => ?_, ?_⟩
    · rw [hdev.1, unmasked_irqEnable]
      simp only [BitVec.getLsbD_or, getLsbD_channelBit hc]
      by_cases hcc : c' = c
      · subst hcc
        rw [if_pos rfl]
        exact iff_of_true (by simp) hzero
      · rw [if_neg hcc, ← h.channel]
        simp [Ne.symm hcc]
    · rw [hdev.2]
      refine iff_of_true (by decide) ⟨c, ?_⟩
      rwa [unmasked_irqEnable, if_pos rfl]

/-- The step lemma: a call keeps the registers right exactly where it is safe. -/
theorem irqStep_follow {call : IrqCall} (hplaced : Placed dual s.mem) (h : EnablesFollow s)
    (hstep : IrqStep dual s call t) :
    (EnablesFollow t ↔ MaskSafe s call t) ∧ Placed dual t.mem := by
  obtain ⟨hpresent, hrun⟩ := hstep
  obtain rfl := call.exec_iff.mp hrun
  cases call with
  | mask c irq => exact ⟨masked_follow h (hplaced c hpresent), hplaced.masked⟩
  | unmask c irq =>
    exact ⟨iff_of_true (unmasked_follow h (hplaced c hpresent)) trivial, hplaced.unmasked⟩

/-- In a run of mask and unmask calls the registers follow the unmasked pins in every state
exactly if every mask call is safe. -/
theorem enables_follow_iff (dual : Bool) (s : Sys GpioRegs) (h : IrqsOff dual s)
    (l : List (IrqCall × Sys GpioRegs)) (hrun : Run (IrqStep dual) s l) :
    Everywhere (fun _ _ t => EnablesFollow t) s l ↔ Everywhere MaskSafe s l := by
  have hstep : ∀ s call t, Placed dual s.mem ∧ EnablesFollow s → IrqStep dual s call t →
      (EnablesFollow t ↔ MaskSafe s call t) ∧
        (EnablesFollow t → Placed dual t.mem ∧ EnablesFollow t) := by
    intro s call t hs hcall
    obtain ⟨hiff, hplaced⟩ := irqStep_follow hs.1 hs.2 hcall
    exact ⟨hiff, fun ht => ⟨hplaced, ht⟩⟩
  exact hrun.everywhere_iff hstep ⟨h.placed, h.follow⟩

end Enables

section Runs

/-- The structures and registers of a device with two channels of 32 pins. -/
def quiet : Sys GpioRegs where
  mem :=
    { chip := fun c => { XgpioInstance.zero with
        offset := c.offset
        irqBase := 100 + 32 * c.index
        ngpio := 32 }
      drvdata := some .first
      handlerData := fun _ => none
      chainedHandler := fun _ => false
      chipData := fun _ => none
      registered := fun _ => true
      clkPrepared := 1
      clkEnabled := 1
      pmEnabled := true
      pmActive := true
      pmUsage := 0
      pmIdle := false }
  trace := []
  dev :=
    { pins := fun _ => 0
      data := fun _ => 0
      tri := fun _ => 0
      gier := 0
      ipisr := 0
      ipier := 0 }

theorem irqsOff_quiet : IrqsOff true quiet := ⟨fun _ _ => rfl, fun _ => rfl, rfl, rfl⟩

def runCalls (s : Sys GpioRegs) : List IrqCall → List (IrqCall × Sys GpioRegs)
  | [] => []
  | i :: rest => (i, i.after s) :: runCalls (i.after s) rest

theorem runCalls_run (s : Sys GpioRegs) (calls : List IrqCall) :
    Run (IrqStep true) s (runCalls s calls) := by
  induction calls generalizing s with
  | nil => exact .nil s
  | cons i rest ih =>
    refine .cons ⟨?_, i.exec_iff.mpr rfl⟩ (ih _)
    cases i.channel with
    | first => trivial
    | second => rfl

/-- Two pins are unmasked and one of them is masked again. -/
theorem enables_follow_twoPins : Everywhere (fun _ _ t => EnablesFollow t) quiet
    (runCalls quiet [.unmask .first 100, .unmask .first 101, .mask .first 100]) := by
  refine (enables_follow_iff true quiet irqsOff_quiet _ (runCalls_run _ _)).mpr ?_
  exact ⟨trivial, trivial, .inl (by decide), trivial⟩

/-- When the only pin of the first channel is masked, the second channel is disabled. -/
theorem other_channel_disabled : ¬∀ dual s, IrqsOff dual s → ∀ l, Run (IrqStep dual) s l →
    Everywhere (fun _ _ t => EnablesFollow t) s l := by
  intro h
  obtain ⟨-, -, hmask, -⟩ := h true quiet irqsOff_quiet _
    (runCalls_run quiet [.unmask .first 100, .unmask .second 132, .mask .first 100])
  exact absurd ((hmask.channel .second).mpr (by decide)) (by decide)

end Runs

end PynqPrio.Gpio
