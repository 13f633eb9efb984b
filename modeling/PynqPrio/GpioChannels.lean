import PynqPrio.GpioInterruptEnable
import PynqPrio.GpioPins
import PynqPrio.InterleavedPrograms

/-!
# The two channels at once

Each channel has a lock of its own, while `IPIER` is shared. A call of `xgpio_irq_unmask`
on one channel reads `IPIER` and writes it back later, and a call on the other may write it
in between.
-/
namespace PynqPrio.Gpio
open Programs Programs.Driver Programs.Prog

section Messages

/-- A call of a channel in progress, or between two calls the memory it has left. The calls of
a channel only use the structure of the channel, so each channel has a memory of its own. -/
abbrev Call := Prog Port Port.Res (Unit × GpioMem)

/-! The messages of `xgpio_irq_unmask`, from the last one on. -/
def sendGier (d : GpioMem) : Call := .call (.writereg gierOffset gierIe) fun _ => .ret ((), d)

def sendIpier (c : Channel) (temp : BitVec 32) (d : GpioMem) : Call :=
  .call (.writereg ipierOffset (temp ||| BitVec.twoPow 32 c.index)) fun _ => sendGier d

def readIpier (c : Channel) (d : GpioMem) : Call :=
  .call (.readreg ipierOffset) fun temp => sendIpier c temp d

def sendTri (c : Channel) (d : GpioMem) : Call :=
  .call (.writereg (c.offset + triOffset) (d.chip c).gpioDir) fun _ => readIpier c d

def GpioMem.unmasked (d : GpioMem) (c : Channel) (pin : ℕ) : GpioMem :=
  (d.update c fun chip => chip.withDir (chip.gpioDir ||| bit pin)).update c fun chip =>
    chip.withIrqEnable (chip.irqEnable ||| bit pin)

def unmaskCall (c : Channel) (pin : ℕ) (d : GpioMem) : Call :=
  messages (xgpioIrqUnmask c ((d.chip c).irqBase + pin)) d

variable {c : Channel} {pin : ℕ} {d : GpioMem}

theorem or_bit_ne_zero (x : BitVec 32) (hpin : pin < 32) : x ||| bit pin ≠ 0 := by
  intro h
  have hbit := getLsbD_or_bit hpin x pin
  rw [h, if_pos rfl] at hbit
  exact absurd hbit (by simp)

theorem unmasked_chip (d : GpioMem) (c : Channel) (pin : ℕ) : (d.unmasked c pin).chip c =
    ((d.chip c).withDir ((d.chip c).gpioDir ||| bit pin)).withIrqEnable
      ((d.chip c).irqEnable ||| bit pin) := by
  rw [GpioMem.unmasked, GpioMem.update_self, GpioMem.update_self]
  rfl

/-- What the call sends, one message after the other. -/
theorem unmaskCall_eq (hc : (d.chip c).offset = c.offset) (hpin : pin < 32) :
    unmaskCall c pin d = sendTri c (d.unmasked c pin) := by
  let irq := u32 ((d.chip c).irqBase + pin - (d.chip c).irqBase)
  have hirq : irq = pin := u32_pin _ hpin
  let d₁ := d.update c fun chip => chip.withDir (chip.gpioDir ||| bit irq)
  let d₂ := d₁.update c fun chip => chip.withIrqEnable (chip.irqEnable ||| bit irq)
  have hcall : unmaskCall c pin d =
      .call (.writereg ((d₁.chip c).offset + triOffset) (d₁.chip c).gpioDir) fun _ =>
        messages (if (d₂.chip c).irqEnable ≠ 0 then do
          let temp ← xgpioReadreg ipierOffset
          let temp := temp ||| (d₂.chip c).channelBit
          xgpioWritereg ipierOffset temp
          xgpioWritereg gierOffset gierIe
          else return () : Xgpio Unit) d₂ := rfl
  have hd₂ : d₂ = d.unmasked c pin := by
    rw [← hirq]
    rfl
  have hchip := unmasked_chip d c pin
  have hne : (d₂.chip c).irqEnable ≠ 0 := by
    rw [hd₂, hchip]
    exact or_bit_ne_zero _ hpin
  have hoffset : (d₂.chip c).offset = c.offset := by
    rw [hd₂, hchip]
    exact hc
  have hdir : (d₁.chip c).gpioDir = ((d.unmasked c pin).chip c).gpioDir := by
    rw [GpioMem.update_self, hchip, hirq]
    rfl
  have hoffset₁ : (d₁.chip c).offset = c.offset := by
    rw [GpioMem.update_self]
    exact hc
  rw [hcall, if_pos hne, channelBit_of_offset hoffset, hdir, hoffset₁, hd₂]
  rfl

end Messages

section Interleaving

def Channel.other : Channel → Channel
  | .first => .second
  | .second => .first

/-- The device and the calls of the two channels, whether a call on the channel has returned,
and what the last call on it has read from `IPIER`. -/
structure ChannelsState where
  threads : Threads Channel Port.Res (Unit × GpioMem) GpioRegs
  returned : Channel → Bool
  seen : Channel → BitVec 32

inductive ChannelsLabel where
  | call (c : Channel) (pin : ℕ)
  | message (c : Channel)

/-- A channel without a call gets one, or the call of a channel exchanges a message with the
device. -/
def ChannelsStep (s : ChannelsState) (label : ChannelsLabel) (t : ChannelsState) : Prop :=
  match label with
  | .call c pin => pin < 32 ∧ ∃ d, s.threads.prog c = .ret ((), d) ∧
      t = { s with threads :=
        { s.threads with prog := Function.update s.threads.prog c (unmaskCall c pin d) } }
  | .message c => ThreadStep gpioCore c s.threads t.threads ∧
      t.returned = Function.update s.returned c (s.returned c || (t.threads.prog c).isRet) ∧
      t.seen = if (s.threads.prog c).nextOp = some (.readreg ipierOffset) then
        Function.update s.seen c s.threads.dev.ipier else s.seen

def NoCall (s : ChannelsState) : Prop := ∀ c, (s.threads.prog c).isRet = true

structure ChannelsStart (s : ChannelsState) : Prop where
  idle : ∀ c, ∃ d, s.threads.prog c = .ret ((), d) ∧ (d.chip c).offset = c.offset
  returned : ∀ c, s.returned c = false

/-- When no call is in progress, each channel on which one has returned is enabled. -/
def InterruptsOn (s : ChannelsState) : Prop :=
  NoCall s → ∀ c, s.returned c = true →
    s.threads.dev.ipier.getLsbD c.index = true ∧ s.threads.dev.gier.getLsbD 31 = true

/-- When a call writes `IPIER`, the bit of the other channel, if it is set, was set when the
call read `IPIER`. -/
def WriteKeeps (s : ChannelsState) (label : ChannelsLabel) (_ : ChannelsState) : Prop :=
  match label with
  | .message c => ∀ value, (s.threads.prog c).nextOp = some (.writereg ipierOffset value) →
      s.threads.dev.ipier.getLsbD c.other.index = true →
      (s.seen c).getLsbD c.other.index = true
  | .call .. => True

inductive UnmaskPhase (c : Channel) (seen : BitVec 32) : Call → Prop
  | idle (d : GpioMem) (hc : (d.chip c).offset = c.offset) : UnmaskPhase c seen (.ret ((), d))
  | tri (d : GpioMem) (hc : (d.chip c).offset = c.offset) : UnmaskPhase c seen (sendTri c d)
  | read (d : GpioMem) (hc : (d.chip c).offset = c.offset) : UnmaskPhase c seen (readIpier c d)
  | ipier (d : GpioMem) (hc : (d.chip c).offset = c.offset) :
      UnmaskPhase c seen (sendIpier c seen d)
  | gier (d : GpioMem) (hc : (d.chip c).offset = c.offset) : UnmaskPhase c seen (sendGier d)

/-- A channel that has written `IPIER` has its bit, and one that has returned has enabled
`GIER` too. -/
structure ChannelsInv (s : ChannelsState) : Prop where
  phase : ∀ c, UnmaskPhase c (s.seen c) (s.threads.prog c)
  written : ∀ c, (s.returned c = true ∨ ∃ d, s.threads.prog c = sendGier d) →
    s.threads.dev.ipier.getLsbD c.index = true
  gier : ∀ c, s.returned c = true → s.threads.dev.gier.getLsbD 31 = true

variable {s t : ChannelsState} {label : ChannelsLabel} {c : Channel} {d : GpioMem}

theorem sendTri_ne_sendGier (c : Channel) (d d' : GpioMem) : sendTri c d ≠ sendGier d' := by
  intro h
  have hmessage := Option.some.inj (congrArg nextOp h)
  obtain ⟨haddr, -⟩ := Port.writereg.inj hmessage
  cases c with
  | first => exact absurd haddr (by decide)
  | second => exact absurd haddr (by decide)

theorem ChannelsStart.inv (h : ChannelsStart s) : ChannelsInv s := by
  constructor
  · intro c
    obtain ⟨d, hidle, hc⟩ := h.idle c
    rw [hidle]
    exact .idle d hc
  · rintro c (hreturned | ⟨d, hgier⟩)
    · exact absurd ((h.returned c).symm.trans hreturned) Bool.false_ne_true
    · obtain ⟨d', hidle, -⟩ := h.idle c
      cases hidle.symm.trans hgier
  · intro c hreturned
    exact absurd ((h.returned c).symm.trans hreturned) Bool.false_ne_true

theorem ChannelsInv.interruptsOn (h : ChannelsInv s) : InterruptsOn s :=
  fun _ c hreturned => ⟨h.written c (.inl hreturned), h.gier c hreturned⟩

theorem channelsInv_call {pin : ℕ} (hs : ChannelsInv s) (h : ChannelsStep s (.call c pin) t) :
    ChannelsInv t := by
  obtain ⟨hpin, d, hidle, rfl⟩ := h
  have hc : (d.chip c).offset = c.offset := by
    have hphase := hs.phase c
    rw [hidle] at hphase
    cases hphase
    assumption
  have hc' : ((d.unmasked c pin).chip c).offset = c.offset := by
    rw [unmasked_chip]
    exact hc
  have hcall := unmaskCall_eq hc hpin
  constructor
  · intro c'
    by_cases hcc : c' = c
    · subst hcc
      change UnmaskPhase c' (s.seen c') (Function.update s.threads.prog c' _ c')
      rw [Function.update_self, hcall]
      exact .tri _ hc'
    · change UnmaskPhase c' (s.seen c') (Function.update s.threads.prog c _ c')
      rw [Function.update_of_ne hcc]
      exact hs.phase c'
  · rintro c' (hreturned | ⟨d', hgier⟩)
    · exact hs.written c' (.inl hreturned)
    · by_cases hcc : c' = c
      · subst hcc
        change Function.update s.threads.prog c' _ c' = _ at hgier
        rw [Function.update_self, hcall] at hgier
        exact absurd hgier (sendTri_ne_sendGier _ _ _)
      · change Function.update s.threads.prog c _ c' = _ at hgier
        rw [Function.update_of_ne hcc] at hgier
        exact hs.written c' (.inr ⟨d', hgier⟩)
  · exact hs.gier

inductive Sends (c : Channel) (s t : ChannelsState) : Prop
  | tri (d : GpioMem) (hc : (d.chip c).offset = c.offset) (hp : s.threads.prog c = sendTri c d)
      (hprog : t.threads.prog = Function.update s.threads.prog c (readIpier c d))
      (hipier : t.threads.dev.ipier = s.threads.dev.ipier)
      (hgier : t.threads.dev.gier = s.threads.dev.gier)
      (hreturned : t.returned = s.returned) (hseen : t.seen = s.seen)
  | read (d : GpioMem) (hc : (d.chip c).offset = c.offset) (hp : s.threads.prog c = readIpier c d)
      (hprog : t.threads.prog =
        Function.update s.threads.prog c (sendIpier c s.threads.dev.ipier d))
      (hipier : t.threads.dev.ipier = s.threads.dev.ipier)
      (hgier : t.threads.dev.gier = s.threads.dev.gier)
      (hreturned : t.returned = s.returned)
      (hseen : t.seen = Function.update s.seen c s.threads.dev.ipier)
  | ipier (d : GpioMem) (hc : (d.chip c).offset = c.offset)
      (hp : s.threads.prog c = sendIpier c (s.seen c) d)
      (hprog : t.threads.prog = Function.update s.threads.prog c (sendGier d))
      (hipier : t.threads.dev.ipier = s.seen c ||| BitVec.twoPow 32 c.index)
      (hgier : t.threads.dev.gier = s.threads.dev.gier)
      (hreturned : t.returned = s.returned) (hseen : t.seen = s.seen)
  | gier (d : GpioMem) (hc : (d.chip c).offset = c.offset) (hp : s.threads.prog c = sendGier d)
      (hprog : t.threads.prog = Function.update s.threads.prog c (.ret ((), d)))
      (hipier : t.threads.dev.ipier = s.threads.dev.ipier)
      (hgier : t.threads.dev.gier = gierIe)
      (hreturned : t.returned = Function.update s.returned c true) (hseen : t.seen = s.seen)

theorem sends_of_step (hs : ChannelsInv s) (h : ChannelsStep s (.message c) t) : Sends c s t := by
  obtain ⟨⟨q, hstep, hprog⟩, hreturned, hseen⟩ := h
  have hphase := hs.phase c
  generalize hp : s.threads.prog c = p at hphase hstep hseen
  have hq : t.threads.prog c = q := by rw [hprog, Function.update_self]
  rw [hq] at hreturned
  -- as long as the call has not ended
  have hkeep : q.isRet = false → t.returned = s.returned := by
    intro hgoing
    rw [hreturned, hgoing, Bool.or_false, Function.update_eq_self]
  cases hphase with
  | idle d hc => exact hstep.elim
  | tri d hc =>
    obtain ⟨x, ⟨k, hk⟩, rfl⟩ := hstep
    obtain ⟨-, hdev⟩ := Prod.mk.inj (Option.some.inj hk)
    rw [GpioRegs.write_tri] at hdev
    rw [if_neg (by intro h; cases h)] at hseen
    exact .tri d hc hp hprog (by rw [← hdev]) (by rw [← hdev]) (hkeep rfl) hseen
  | read d hc =>
    obtain ⟨x, ⟨k, hk⟩, rfl⟩ := hstep
    obtain ⟨hanswer, hdev⟩ := Prod.mk.inj (Option.some.inj hk)
    rw [GpioRegs.read_ipier] at hanswer
    have hnext : (readIpier c d).nextOp = some (.readreg ipierOffset) := rfl
    rw [if_pos hnext] at hseen
    rw [← hanswer] at hprog
    exact .read d hc hp hprog (by rw [← hdev]) (by rw [← hdev]) (hkeep rfl) hseen
  | ipier d hc =>
    obtain ⟨x, ⟨k, hk⟩, rfl⟩ := hstep
    obtain ⟨-, hdev⟩ := Prod.mk.inj (Option.some.inj hk)
    rw [GpioRegs.write_ipier] at hdev
    rw [if_neg (by intro h; cases h)] at hseen
    exact .ipier d hc hp hprog (by rw [← hdev]) (by rw [← hdev]) (hkeep rfl) hseen
  | gier d hc =>
    obtain ⟨x, ⟨k, hk⟩, rfl⟩ := hstep
    obtain ⟨-, hdev⟩ := Prod.mk.inj (Option.some.inj hk)
    rw [GpioRegs.write_gier] at hdev
    rw [if_neg (by intro h; cases h)] at hseen
    have hended : t.returned = Function.update s.returned c true := by
      rw [hreturned]
      exact congrArg _ (Bool.or_true _)
    exact .gier d hc hp hprog (by rw [← hdev]) (by rw [← hdev]) hended hseen

/-- The phase of the channel that has exchanged a message, and that of the other. -/
theorem phase_update (hs : ChannelsInv s) {q : Call} {seen : Channel → BitVec 32}
    (hprog : t.threads.prog = Function.update s.threads.prog c q) (hseen : t.seen = seen)
    (hown : UnmaskPhase c (seen c) q) (hother : ∀ c', c' ≠ c → seen c' = s.seen c') (c' : Channel) :
    UnmaskPhase c' (t.seen c') (t.threads.prog c') := by
  rw [hprog, hseen]
  by_cases hcc : c' = c
  · subst hcc
    rw [Function.update_self]
    exact hown
  · rw [Function.update_of_ne hcc, hother c' hcc]
    exact hs.phase c'

theorem sendIpier_ne_sendGier (c : Channel) (x : BitVec 32) (d d' : GpioMem) :
    sendIpier c x d ≠ sendGier d' := by
  intro h
  have hmessage := Option.some.inj (congrArg nextOp h)
  obtain ⟨haddr, -⟩ := Port.writereg.inj hmessage
  exact absurd haddr (by decide)

/-- A message that neither writes `IPIER` nor ends the call keeps what has been written. -/
theorem written_of_going {q : Call} (hs : ChannelsInv s)
    (hprog : t.threads.prog = Function.update s.threads.prog c q) (hq : ∀ d, q ≠ sendGier d)
    (hreturned : t.returned = s.returned) (c' : Channel)
    (h : t.returned c' = true ∨ ∃ d, t.threads.prog c' = sendGier d) :
    s.threads.dev.ipier.getLsbD c'.index = true := by
  rw [hprog, hreturned] at h
  apply hs.written c'
  obtain hret | ⟨d, hgier⟩ := h
  · exact .inl hret
  · by_cases hcc : c' = c
    · subst hcc
      rw [Function.update_self] at hgier
      exact absurd hgier (hq d)
    · rw [Function.update_of_ne hcc] at hgier
      exact .inr ⟨d, hgier⟩

theorem Channel.eq_other {c c' : Channel} (h : c' ≠ c) : c' = c.other := by
  cases c <;> cases c' <;> first | rfl | exact absurd rfl h

theorem channelsInv_message (hs : ChannelsInv s) (hkeep : WriteKeeps s (.message c) t)
    (h : ChannelsStep s (.message c) t) : ChannelsInv t := by
  cases sends_of_step hs h with
  | tri d hc hp hprog hipier hgier hreturned hseen =>
    constructor
    · exact phase_update hs hprog hseen (.read d hc) fun _ _ => rfl
    · rw [hipier]
      apply written_of_going hs hprog _ hreturned
      intro d' hd'
      cases hd'
    · rw [hreturned, hgier]
      exact hs.gier
  | read d hc hp hprog hipier hgier hreturned hseen =>
    constructor
    · apply phase_update hs hprog hseen
      · rw [Function.update_self]
        exact .ipier d hc
      · intro c' hcc
        exact Function.update_of_ne hcc _ _
    · rw [hipier]
      exact written_of_going hs hprog (sendIpier_ne_sendGier c _ d) hreturned
    · rw [hreturned, hgier]
      exact hs.gier
  | ipier d hc hp hprog hipier hgier hreturned hseen =>
    have hnext : (s.threads.prog c).nextOp =
        some (.writereg ipierOffset (s.seen c ||| BitVec.twoPow 32 c.index)) := by
      rw [hp]
      rfl
    constructor
    · exact phase_update hs hprog hseen (.gier d hc) fun _ _ => rfl
    · intro c' hwritten
      rw [hipier, BitVec.getLsbD_or, Bool.or_eq_true]
      by_cases hcc : c' = c
      · subst hcc
        right
        cases c' <;> rfl
      · left
        -- the bit of the other channel was there before the write, so the call has read it
        rw [hprog, Function.update_of_ne hcc, hreturned] at hwritten
        have hbit := hs.written c' hwritten
        rw [Channel.eq_other hcc] at hbit ⊢
        exact hkeep _ hnext hbit
    · rw [hreturned, hgier]
      exact hs.gier
  | gier d hc hp hprog hipier hgier hreturned hseen =>
    constructor
    · exact phase_update hs hprog hseen (.idle d hc) fun _ _ => rfl
    · intro c' hwritten
      rw [hipier]
      apply hs.written c'
      by_cases hcc : c' = c
      · subst hcc
        exact .inr ⟨d, hp⟩
      · rw [hprog, Function.update_of_ne hcc, hreturned, Function.update_of_ne hcc] at hwritten
        exact hwritten
    · intro c' _
      rw [hgier]
      rfl

/-- A message keeps the bit of the other channel exactly if it meets the condition. -/
theorem writeKeeps_iff (hs : ChannelsInv s) (h : ChannelsStep s (.message c) t) :
    WriteKeeps s (.message c) t ↔ (s.threads.dev.ipier.getLsbD c.other.index = true →
      t.threads.dev.ipier.getLsbD c.other.index = true) := by
  have hother : ∀ addr value, addr ≠ ipierOffset →
      (s.threads.prog c).nextOp = some (.writereg addr value) → WriteKeeps s (.message c) t := by
    intro addr value haddr hnext value' hnext'
    rw [hnext] at hnext'
    exact absurd (Port.writereg.inj (Option.some.inj hnext')).1 haddr
  cases sends_of_step hs h with
  | tri d hc hp hprog hipier hgier hreturned hseen =>
    have htri : c.offset + triOffset ≠ ipierOffset := by
      cases c <;> decide
    rw [hipier]
    exact iff_of_true (hother _ _ htri (congrArg nextOp hp)) id
  | read d hc hp hprog hipier hgier hreturned hseen =>
    rw [hipier]
    refine iff_of_true (fun value hnext => ?_) id
    rw [hp] at hnext
    cases hnext
  | ipier d hc hp hprog hipier hgier hreturned hseen =>
    have hbit : t.threads.dev.ipier.getLsbD c.other.index =
        (s.seen c).getLsbD c.other.index := by
      rw [hipier, BitVec.getLsbD_or]
      cases c <;> exact Bool.or_false _
    rw [hbit]
    constructor
    · intro hkeep
      exact hkeep _ (congrArg nextOp hp)
    · intro hkeep value _
      exact hkeep
  | gier d hc hp hprog hipier hgier hreturned hseen =>
    rw [hipier]
    exact iff_of_true (hother _ _ (by decide) (congrArg nextOp hp)) id

theorem channelsInv_step (hs : ChannelsInv s) (hkeep : WriteKeeps s label t)
    (h : ChannelsStep s label t) : ChannelsInv t := by
  cases label with
  | call c pin => exact channelsInv_call hs h
  | message c => exact channelsInv_message hs hkeep h

/-- A call that nobody interrupts does what `xgpio_irq_unmask` does. -/
theorem exec_iff_alone {s : Threads Channel Port.Res (Unit × GpioMem) GpioRegs} {c : Channel}
    {pin : ℕ} {d d' : GpioMem} {dev : GpioRegs} (hcall : s.prog c = unmaskCall c pin d)
    (l : List Event) :
    (∃ l', Exec (withMemory gpioCore) (xgpioIrqUnmask c ((d.chip c).irqBase + pin))
      ⟨d, l, s.dev⟩ () ⟨d', l', dev⟩) ↔
    Relation.ReflTransGen (ThreadStep gpioCore c) s
      ⟨dev, Function.update s.prog c (.ret ((), d'))⟩ := by
  constructor
  · rintro ⟨l', hexec⟩
    have hsteps := smallSteps_of_exec (messages_of_exec hexec)
    apply threadSteps_of_smallSteps
    rw [hcall]
    exact hsteps
  · intro h
    obtain ⟨hsteps, -⟩ := threadSteps_alone h
    have hret : Function.update s.prog c (.ret ((), d')) c = .ret ((), d') :=
      Function.update_self _ _ _
    change SmallSteps gpioCore _ _ (Function.update s.prog c _ c) dev at hsteps
    rw [hcall, hret] at hsteps
    exact exec_of_messages l (exec_iff_smallSteps.mpr hsteps)

theorem channelsStart_of_placed {d : GpioMem} (h : Placed true d) (dev : GpioRegs)
    (seen : Channel → BitVec 32) :
    ChannelsStart ⟨⟨dev, fun _ => .ret ((), d)⟩, fun _ => false, seen⟩ := by
  constructor
  · intro c
    refine ⟨d, rfl, h c ?_⟩
    cases c with
    | first => trivial
    | second => rfl
  · intro c
    rfl

/-- The interrupts of both channels stay on as long as no call overwrites the bit that the
other channel has set since its read. -/
theorem interrupts_kept (s : ChannelsState) (h : ChannelsStart s)
    (l : List (ChannelsLabel × ChannelsState)) (hrun : Run ChannelsStep s l)
    (hkeep : Everywhere WriteKeeps s l) :
    InterruptsOn s ∧ Everywhere (fun _ _ t => InterruptsOn t) s l := by
  have hinv : Run (fun s label t => ChannelsInv s ∧ WriteKeeps s label t ∧ ChannelsStep s label t)
      s l := (hrun.meeting hkeep).with_invariant
    (fun _ _ _ hs hstep => channelsInv_step hs hstep.1 hstep.2) h.inv
  constructor
  · exact h.inv.interruptsOn
  · apply hinv.everywhere
    intro s label t hstep
    exact (channelsInv_step hstep.1 hstep.2.1 hstep.2.2).interruptsOn

end Interleaving

section Runs

def ChannelsState.after (s : ChannelsState) : ChannelsLabel → ChannelsState
  | .call c pin =>
    match s.threads.prog c with
    | .ret ((), d) =>
      { s with threads :=
        { s.threads with prog := Function.update s.threads.prog c (unmaskCall c pin d) } }
    | _ => s
  | .message c =>
    match s.threads.prog c with
    | .call o k =>
      match GpioRegs.answer s.threads.dev ⟨true, none, 0⟩ o with
      | some (x, dev) =>
        { threads := ⟨dev, Function.update s.threads.prog c (k x)⟩
          returned := Function.update s.returned c (s.returned c || (k x).isRet)
          seen := if (s.threads.prog c).nextOp = some (.readreg ipierOffset) then
            Function.update s.seen c s.threads.dev.ipier else s.seen }
      | none => s
    | _ => s

def ChannelsState.can (s : ChannelsState) : ChannelsLabel → Bool
  | .call c pin => decide (pin < 32) && (s.threads.prog c).isRet
  | .message c => (s.threads.prog c).nextOp.isSome

theorem step_after {s : ChannelsState} {label : ChannelsLabel} (h : s.can label = true) :
    ChannelsStep s label (s.after label) := by
  cases label with
  | call c pin =>
    obtain ⟨hpin, hret⟩ := (Bool.and_eq_true _ _).mp h
    rw [ChannelsState.after]
    generalize hp : s.threads.prog c = p at hret
    cases p with
    | ret a => exact ⟨of_decide_eq_true hpin, a.2, hp, rfl⟩
    | call o k => cases hret
    | loop body b k => cases hret
  | message c =>
    rw [ChannelsState.can] at h
    rw [ChannelsState.after]
    generalize hp : s.threads.prog c = p at h
    cases p with
    | ret a => cases h
    | loop body b k => cases h
    | call o k =>
      obtain ⟨x, dev, hx⟩ : ∃ x dev,
          GpioRegs.answer s.threads.dev ⟨true, none, 0⟩ o = some (x, dev) := by
        cases o <;> exact ⟨_, _, rfl⟩
      simp only [hx]
      refine ⟨⟨k x, ?_, rfl⟩, ?_, ?_⟩
      · rw [hp]
        exact ⟨x, ⟨_, hx⟩, rfl⟩
      · simp only [Function.update_self]
      · rw [hp]

def ChannelsState.steps (s : ChannelsState) (labels : List ChannelsLabel) :
    List (ChannelsLabel × ChannelsState) :=
  stepsOf ChannelsState.after s labels

theorem run_steps {s : ChannelsState} {labels : List ChannelsLabel}
    (h : canAll ChannelsState.after ChannelsState.can s labels = true) :
    Run ChannelsStep s (s.steps labels) :=
  run_stepsOf (fun _ _ => step_after) h

/-- Whether the step keeps the bit of the other channel in `IPIER`. -/
def ChannelsState.keeps (s : ChannelsState) : ChannelsLabel → Bool
  | .call .. => true
  | .message c =>
    match (s.threads.prog c).nextOp with
    | some (.writereg addr _) => !(addr == ipierOffset &&
        s.threads.dev.ipier.getLsbD c.other.index && !(s.seen c).getLsbD c.other.index)
    | _ => true

theorem writeKeeps_of_keeps {s t : ChannelsState} {label : ChannelsLabel}
    (h : s.keeps label = true) : WriteKeeps s label t := by
  cases label with
  | call c pin => trivial
  | message c =>
    intro value hnext hbit
    rw [ChannelsState.keeps, hnext] at h
    simpa [hbit] using h

def pair : ChannelsState :=
  ⟨⟨(probed 1).dev, fun _ => .ret ((), (probed 1).mem)⟩, fun _ => false, fun _ => 0⟩

theorem channelsStart_pair : ChannelsStart pair := by
  have hreached : GpioReached (treeOf 1) (probed 1) := reached_probed rfl
  exact channelsStart_of_placed (hreached.wired (by decide)).placed _ _

def oneCall (c : Channel) : List ChannelsLabel :=
  .call c 0 :: List.replicate 4 (.message c)

/-- Both calls read `IPIER` before either of them writes it. -/
def bothCalls : List ChannelsLabel :=
  [.call .first 0, .call .second 0, .message .first, .message .second, .message .first,
    .message .second, .message .first, .message .second, .message .first, .message .second]

/-- The state after a call on the first channel and then one on the second. -/
def calledApart : ChannelsState := finish pair (pair.steps (oneCall .first ++ oneCall .second))

theorem interrupts_kept_apart : (∀ c, calledApart.returned c = true) ∧ InterruptsOn calledApart := by
  have hkeep : Everywhere WriteKeeps pair (pair.steps (oneCall .first ++ oneCall .second)) :=
    everywhere_stepsOf (fun _ _ => writeKeeps_of_keeps) rfl
  obtain ⟨hstart, hkept⟩ := interrupts_kept pair channelsStart_pair _ (run_steps rfl) hkeep
  refine ⟨fun c => ?_, hkept.finish hstart⟩
  cases c <;> rfl

/-- The state after two calls whose accesses to `IPIER` overlap. -/
def calledAtOnce : ChannelsState := finish pair (pair.steps bothCalls)

/-- The second call has written back the `IPIER` that it read before the first call set its
bit. -/
theorem channel_lost : ¬∀ s, ChannelsStart s → ∀ l, Run ChannelsStep s l →
    InterruptsOn s ∧ Everywhere (fun _ _ t => InterruptsOn t) s l := by
  intro h
  obtain ⟨hstart, hkept⟩ := h pair channelsStart_pair (pair.steps bothCalls) (run_steps rfl)
  have hidle : NoCall calledAtOnce := by
    intro c
    cases c <;> rfl
  have hbit := (hkept.finish hstart hidle .first rfl).1
  exact absurd hbit (by decide)

end Runs

end PynqPrio.Gpio
