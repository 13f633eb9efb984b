import PynqPrio.IicRunTracking

/-!
# The IIC core

An executable device with the two FIFOs, in which words are taken out of the TX FIFO in
order, bytes arrive for the read being executed, and an interrupt is raised only for its
cause. Between two register accesses any number of these events may happen.
-/
namespace PynqPrio.Iic
open Programs Programs.Driver Programs.Prog

structure IicCore where
  txFifo : List (BitVec 16)
  rxFifo : List (BitVec 8)
  /-- The slave has been addressed for reading and the byte count comes next. -/
  counting : Bool
  /-- Bytes of the current read that have not arrived yet. -/
  expected : ℕ
  /-- The current read ends with a STOP. -/
  stopping : Bool
  /-- A STOP has gone out since the last START. -/
  stopped : Bool
  rfd : BitVec 8
  iisr : BitVec 32
  iier : BitVec 32

inductive CoreEvent where
  | drain
  | receive (byte : BitVec 8)
  | raise (mask : BitVec 32)

namespace IicCore

/-- The core after a reset. -/
def idle : IicCore where
  txFifo := []
  rxFifo := []
  counting := false
  expected := 0
  stopping := false
  stopped := false
  rfd := 0
  iisr := 0
  iier := 0

/-- Take the next word out of the TX FIFO, unless a read is being executed. -/
def drain (c : IicCore) : IicCore :=
  match c.txFifo with
  | [] => c
  | word :: rest =>
    let stop := decide (word &&& txDynStopMask ≠ 0)
    if c.expected ≠ 0 then c
    else if word &&& txDynStartMask ≠ 0 then
      { c with txFifo := rest, counting := decide (word &&& readOperation ≠ 0), stopped := stop }
    else if c.counting = true then
      { c with
        txFifo := rest
        counting := false
        expected := (word.setWidth 8).toNat
        stopping := stop }
    else { c with txFifo := rest, stopped := stop }

def receive (c : IicCore) (byte : BitVec 8) : IicCore :=
  if c.expected = 0 ∨ rxFifoDepth ≤ c.rxFifo.length then c
  else { c with
    rxFifo := c.rxFifo ++ [byte]
    expected := c.expected - 1
    stopped := decide (c.expected = 1) && c.stopping }

/-- The interrupts that have a cause. -/
def causes (c : IicCore) : BitVec 32 :=
  (if c.txFifo = [] then intrTxEmptyMask else 0) |||
  (if c.txFifo.length ≤ txFifoDepth / 2 then intrTxHalfMask else 0) |||
  (if c.rfd.toNat < c.rxFifo.length then intrRxFullMask else 0) |||
  (if c.stopped = true then intrBnbMask else 0)

def after (c : IicCore) : CoreEvent → IicCore
  | .drain => c.drain
  | .receive byte => c.receive byte
  | .raise mask => { c with iisr := c.iisr ||| (mask &&& c.causes) }

def getreg8 (c : IicCore) : Reg → BitVec 8 × IicCore
  | .sr => ((if c.rxFifo = [] then srRxFifoEmptyMask else 0) |||
      (if c.txFifo = [] then srTxFifoEmptyMask else 0), c)
  | .drr => (c.rxFifo.headD 0, { c with rxFifo := c.rxFifo.tail })
  | .tfo => (BitVec.ofNat 8 (c.txFifo.length - 1), c)
  | .rfo => (BitVec.ofNat 8 (c.rxFifo.length - 1), c)
  | .rfd => (c.rfd, c)
  | _ => (0, c)

/-- A bit written to `IISR` is acknowledged. -/
def access (c : IicCore) : (p : Port) → Port.Res p × IicCore
  | .getreg8 reg => c.getreg8 reg
  | .getreg32 .iisr => (c.iisr, c)
  | .getreg32 .iier => (c.iier, c)
  | .getreg32 _ => ((0 : BitVec 32), c)
  | .setreg8 .rfd v => ((), { c with rfd := v })
  | .setreg8 .cr v => ((), if v &&& crTxFifoResetMask ≠ 0 then { c with txFifo := [] } else c)
  | .setreg8 .. => ((), c)
  | .setreg16 .dtr v => ((), { c with txFifo := c.txFifo ++ [v] })
  | .setreg16 .. => ((), c)
  | .setreg32 .iisr v => ((), { c with iisr := c.iisr &&& ~~~v })
  | .setreg32 .iier v => ((), { c with iier := v })
  | .setreg32 .resetr _ => ((), idle)
  | .setreg32 .. => ((), c)

/-- An access, after some events of the core. -/
def answer (c : IicCore) (events : List CoreEvent) (p : Port) : Option (Port.Res p × IicCore) :=
  some ((events.foldl after c).access p)

end IicCore

def iicCore : Machine Port Port.Res IicCore := ofAnswer IicCore.answer

/-- When the events of the core happen. -/
abbrev Schedule := IicCore → Port → List CoreEvent

section Runs

/-- Run a part of the driver under a schedule. -/
def runPart (sched : Schedule) (p : Xiic Unit) (s : Sys IicCore) : Option (Sys IicCore) :=
  (run (onDevice IicCore.answer sched) 40 p s).map Prod.snd

/-- Start a transfer on the idle core and run the interrupt thread under each schedule. -/
def runTransfer (x : Transfer) (d : XiicI2c) (scheds : List Schedule) : Option (Sys IicCore) :=
  scheds.foldl (fun s sched => s.bind (runPart sched xiicProcess))
    (runPart (fun _ _ => []) (startTransfer x.msgs x.bufs) ⟨d, [], .idle⟩)

theorem runPart_exec {sched : Schedule} {p : Xiic Unit} {s t : Sys IicCore}
    (h : runPart sched p s = some t) : Exec (withMemory iicCore) p s () t := by
  obtain ⟨⟨_, u⟩, hrun, rfl⟩ := Option.map_eq_some_iff.mp h
  exact (onDevice_refines IicCore.answer sched).exec p ((watch_sound p s).1 () u hrun)

theorem runTransfer_reached {x : Transfer} {d : XiicI2c} (hd : Idle d) {scheds : List Schedule}
    {t : Sys IicCore} (h : runTransfer x d scheds = some t) : Reached iicCore x t := by
  induction scheds using List.reverseRecOn generalizing t with
  | nil =>
    simp only [runTransfer, List.foldl_nil] at h
    have hexec := runPart_exec h
    exact Reached.start hd rfl hexec
  | append_singleton scheds sched ih =>
    rw [runTransfer, List.foldl_append] at h
    obtain ⟨s, hs, hrun⟩ := Option.bind_eq_some_iff.mp h
    exact .process (ih hs) (runPart_exec hrun)

end Runs

end PynqPrio.Iic
