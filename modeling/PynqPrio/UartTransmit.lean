import PynqPrio.UartRules
import PynqPrio.LabelledRuns
import Mathlib.Data.List.Chain

/-!
# The transmit stream

The bytes of the circular buffer leave through `ulite_transmit`, which `ulite_start_tx`
and `ulite_isr` call with a `STATUS` of their own. Whatever the order of these calls, the
requests of the serial core and the bytes that the device sends, the stream is that of a
queue with one place for a character that goes first.
-/
namespace PynqPrio.Uart
open Programs Programs.Driver Programs.Prog

section Transmit

/-- The steps of the system. The serial core appends a byte, sets `x_char`, stops and starts
the tty; the calls of the driver hold the lock of the port; the device goes on by itself. -/
inductive TxLabel where
  | append (b : BitVec 8)
  | setXChar (b : BitVec 8)
  | setStopped (stopped : Bool)
  | startTx
  | iteration
  | device (a : Activity)

/-- The serial core appends a byte to the buffer. -/
def UartMem.appendByte (b : BitVec 8) (d : UartMem) : UartMem :=
  { d with xmit := d.xmit.push uartXmitSize b }

/-- The serial core asks for a character that goes first. -/
def UartMem.withXChar (b : BitVec 8) (d : UartMem) : UartMem := { d with xChar := b }

/-- The tty is stopped or started. -/
def UartMem.withStopped (stopped : Bool) (d : UartMem) : UartMem := { d with txStopped := stopped }

/-- There is room for another byte. -/
def UartMem.HasRoom (d : UartMem) : Prop := d.xmit.count uartXmitSize + 1 < uartXmitSize

instance (d : UartMem) : Decidable d.HasRoom := inferInstanceAs (Decidable (_ < _))

/-- A byte is only appended while there is room. -/
def TxStep (s : Sys) (label : TxLabel) (t : Sys) : Prop :=
  match label with
  | .append b => s.mem.HasRoom ∧ t = s.withMem (s.mem.appendByte b)
  | .setXChar b => t = s.withMem (s.mem.withXChar b)
  | .setStopped stopped => t = s.withMem (s.mem.withStopped stopped)
  | .startTx => Exec (withMemory uartCore) uliteStartTx s () t
  | .iteration => ∃ busy, Exec (withMemory uartCore) isrIteration s busy t
  | .device a => t = s.withDev (s.dev.act a)

/-- What has come in and gone out: a request to send a character first, that character, and
a byte of the buffer. The request of the character 0 withdraws an earlier one. -/
inductive TxItem where
  | request (b : BitVec 8)
  | xChar (b : BitVec 8)
  | byte (b : BitVec 8)
  deriving DecidableEq

def newWrites (s t : Sys) : List (BitVec 8) := t.dev.written.drop s.dev.written.length

/-- A call that finds `x_char` set writes that, and otherwise a byte of the buffer. -/
def txItems (s : Sys) (label : TxLabel) (t : Sys) : List TxItem :=
  match label with
  | .setXChar b => [.request b]
  | .append _ | .setStopped _ | .startTx | .iteration | .device _ =>
    (newWrites s t).map (if s.mem.xChar ≠ 0 then .xChar else .byte)

def txHistory : Sys → List (TxLabel × Sys) → List TxItem
  | _, [] => []
  | s, (label, t) :: l => txItems s label t ++ txHistory t l

namespace TxItem

def written : TxItem → Option (BitVec 8)
  | .request _ => none
  | .xChar b | .byte b => some b

def ofBuffer : TxItem → Option (BitVec 8)
  | .request _ | .xChar _ => none
  | .byte b => some b

/-- The character that is to be sent when the item is the last one. -/
def pending : TxItem → BitVec 8
  | .request b => b
  | .xChar _ | .byte _ => 0

/-- What may come next. After a request comes its character or another request; the
character only comes after its request. -/
def Follows : TxItem → TxItem → Prop
  | .request b, .xChar b' => b ≠ 0 ∧ b' = b
  | .request b, .byte _ => b = 0
  | .xChar _, .xChar _ | .byte _, .xChar _ => False
  | .xChar _, .byte _ | .byte _, .byte _ => True
  | _, .request _ => True

end TxItem

def appended (l : List (TxLabel × Sys)) : List (BitVec 8) :=
  l.filterMap fun x => match x.1 with
    | .append b => some b
    | .setXChar _ | .setStopped _ | .startTx | .iteration | .device _ => none

def buffered (s : Sys) : List (BitVec 8) := s.mem.xmit.contents uartXmitSize

structure TxFresh (s : Sys) : Prop where
  inRange : s.mem.xmit.InRange uartXmitSize
  empty : uartCircEmpty s.mem.xmit
  xChar : s.mem.xChar = 0
  icount : s.mem.icount.tx = 0#32
  written : s.dev.written = []
  dropped : s.dev.dropped = []

structure StreamRight (s : Sys) (l : List (TxLabel × Sys)) : Prop where
  stream : (txHistory s l).filterMap TxItem.ofBuffer ++ buffered (finish s l) = appended l
  written : (finish s l).dev.written = (txHistory s l).filterMap TxItem.written
  xChars : List.IsChain TxItem.Follows (.request 0 :: txHistory s l)
  pending : (finish s l).mem.xChar = ((txHistory s l).getLast?.map TxItem.pending).getD 0
  dropped : (finish s l).dev.dropped = []
  icount : (finish s l).mem.icount.tx = BitVec.ofNat 32 (finish s l).dev.written.length

variable {s t : Sys} {label : TxLabel} {l : List (TxLabel × Sys)}

/-! The device only sends bytes by itself. -/

structure Later (d e : UartRegs) : Prop where
  written : e.written = d.written
  dropped : e.dropped = d.dropped
  txLength : e.tx.length ≤ d.tx.length

theorem Later.refl (d : UartRegs) : Later d d := ⟨rfl, rfl, Nat.le_refl _⟩

theorem Later.trans {d e f : UartRegs} (h : Later d e) (h' : Later e f) : Later d f :=
  ⟨h'.written.trans h.written, h'.dropped.trans h.dropped, h'.txLength.trans h.txLength⟩

theorem later_act (d : UartRegs) (a : Activity) : Later d (d.act a) := by
  cases a with
  | drain =>
    refine ⟨rfl, rfl, ?_⟩
    simp [UartRegs.act]
  | arrive b =>
    simp only [UartRegs.act]
    split <;> exact ⟨rfl, rfl, Nat.le_refl _⟩
  | overrun => exact ⟨rfl, rfl, Nat.le_refl _⟩
  | frame => exact ⟨rfl, rfl, Nat.le_refl _⟩
  | parity => exact ⟨rfl, rfl, Nat.le_refl _⟩

theorem later_acts (d : UartRegs) (l : List Activity) : Later d (d.acts l) :=
  UartRegs.acts_invariant (Later d) (fun e a h => h.trans (later_act e a)) (.refl d) l

/-- A read of `STATUS` changes nothing of the transmitter. -/
theorem later_status (d : UartRegs) (l : List Activity) : Later d (d.clearErrors.acts l) := by
  have hlater := later_acts d.clearErrors l
  exact ⟨hlater.written, hlater.dropped, hlater.txLength⟩

/-- `Later` apart from a byte that has been written. -/
structure LaterSent (d : UartRegs) (b : BitVec 8) (e : UartRegs) : Prop where
  written : e.written = d.written ++ [b]
  dropped : e.dropped = d.dropped

/-- A byte that is written after `STATUS` has shown room meets a FIFO with room: in between
the device only takes bytes out. -/
theorem laterSent {d e : UartRegs} (hroom : d.status &&& statusTxfull = 0) (h : Later d e)
    (b : BitVec 8) (l : List Activity) : LaterSent d b ((e.send b).acts l) := by
  have hlater := later_acts (e.send b) l
  have hfull : e.txFull = false := by
    rw [status_txfull, UartRegs.txFull, decide_eq_false_iff_not] at hroom
    have hlength := h.txLength
    rw [UartRegs.txFull, decide_eq_false_iff_not]
    omega
  have hsend : e.send b = { e with written := e.written ++ [b], tx := e.tx ++ [b] } := by
    rw [UartRegs.send, hfull]
    exact if_neg Bool.false_ne_true
  constructor
  · rw [hlater.written, hsend, ← h.written]
  · rw [hlater.dropped, hsend, ← h.dropped]

/-- What a call of `ulite_start_tx` or an iteration of `ulite_isr` sends. -/
inductive Sent (s t : Sys) : Prop where
  | nothing (xmit : t.mem.xmit = s.mem.xmit) (xChar : t.mem.xChar = s.mem.xChar)
      (icount : t.mem.icount.tx = s.mem.icount.tx) (dev : Later s.dev t.dev)
  | xChar (hx : s.mem.xChar ≠ 0) (xmit : t.mem.xmit = s.mem.xmit) (xChar : t.mem.xChar = 0)
      (icount : t.mem.icount.tx = s.mem.icount.tx + 1) (dev : LaterSent s.dev s.mem.xChar t.dev)
  | byte (hx : s.mem.xChar = 0) (hne : ¬uartCircEmpty s.mem.xmit)
      (xmit : t.mem.xmit = { s.mem.xmit with tail := nextTail s.mem.xmit.tail })
      (xChar : t.mem.xChar = 0) (icount : t.mem.icount.tx = s.mem.icount.tx + 1)
      (dev : LaterSent s.dev (s.mem.xmit.buf s.mem.xmit.tail) t.dev)

/-- Before `ulite_transmit` nothing of the transmitter has changed. -/
theorem sent_of_transmitted {u : Sys} {r : Bool} (hxmit : u.mem.xmit = s.mem.xmit)
    (hxChar : u.mem.xChar = s.mem.xChar) (hicount : u.mem.icount.tx = s.mem.icount.tx)
    (hdev : Later s.dev u.dev) (h : Transmitted s.dev.status u r t) : Sent s t := by
  cases h with
  | full hfull => exact .nothing hxmit hxChar hicount hdev
  | idle hroom hx hidle => exact .nothing hxmit hxChar hicount hdev
  | xChar l hroom hx hmem hsend =>
    refine .xChar (hxChar ▸ hx) ?_ ?_ ?_ ?_
    · rw [hmem]
      exact hxmit
    · rw [hmem]
      rfl
    · rw [hmem, ← hicount]
      rfl
    · rw [hsend, ← hxChar]
      exact laterSent hroom hdev _ l
  | byte l hroom hx hne hgo hmem hsend =>
    refine .byte (hxChar ▸ hx) (hxmit ▸ hne) ?_ ?_ ?_ ?_
    · rw [hmem, ← hxmit]
      rfl
    · rw [hmem]
      exact hx
    · rw [hmem, ← hicount]
      rfl
    · rw [hsend, ← hxmit]
      exact laterSent hroom hdev _ l

theorem sent_startTx {x : Unit} (h : Exec (withMemory uartCore) uliteStartTx s x t) : Sent s t := by
  obtain ⟨l, r, htransmit⟩ := startTx_of_exec h
  apply sent_of_transmitted _ _ _ _ htransmit
  · rfl
  · rfl
  · rfl
  · exact later_status s.dev l

theorem sent_iteration {r : Bool} (h : Exec (withMemory uartCore) isrIteration s r t) :
    Sent s t := by
  obtain ⟨l, r₁, r₂, u, hreceive, htransmit, -⟩ := iteration_of_exec h
  have hlater := later_status s.dev l
  have hmem := hreceive.mem
  refine sent_of_transmitted ?_ ?_ ?_ ?_ htransmit
  · rw [hmem]
    rfl
  · rw [hmem]
    rfl
  · rw [hmem, UartMem.withIcount]
    split <;> rfl
  · obtain hsame | ⟨-, l', hpop⟩ := hreceive.dev
    · rw [hsame]
      exact hlater
    · rw [hpop]
      have hpopped : Later (s.dev.clearErrors.acts l) (s.dev.clearErrors.acts l).popRx :=
        ⟨rfl, rfl, Nat.le_refl _⟩
      exact (hlater.trans hpopped).trans (later_acts _ l')

/-- What a step of the system does to the stream. -/
structure TxEffect (s : Sys) (label : TxLabel) (t : Sys) : Prop where
  inRange : t.mem.xmit.InRange uartXmitSize
  stream : (txItems s label t).filterMap TxItem.ofBuffer ++ buffered t =
    buffered s ++ appended [(label, t)]
  written : t.dev.written = s.dev.written ++ (txItems s label t).filterMap TxItem.written
  dropped : t.dev.dropped = s.dev.dropped
  icount : t.mem.icount.tx =
    s.mem.icount.tx + BitVec.ofNat 32 ((txItems s label t).filterMap TxItem.written).length
  items : txItems s label t = [] ∧ t.mem.xChar = s.mem.xChar ∨
    ∃ item, txItems s label t = [item] ∧ TxItem.Follows (.request s.mem.xChar) item ∧
      t.mem.xChar = item.pending

theorem nextTail_eq (tail : ℕ) : nextTail tail = (tail + 1) % uartXmitSize :=
  Nat.and_two_pow_sub_one_eq_mod (tail + 1) 12

theorem newWrites_of_later (h : Later s.dev t.dev) : newWrites s t = [] := by
  rw [newWrites, h.written, List.drop_length]

theorem newWrites_of_laterSent {b : BitVec 8} (h : LaterSent s.dev b t.dev) :
    newWrites s t = [b] := by
  rw [newWrites, h.written, List.drop_left]

/-- A step that sends nothing. -/
theorem effect_nothing (hinRange : s.mem.xmit.InRange uartXmitSize)
    (hitems : txItems s label t = (newWrites s t).map (if s.mem.xChar ≠ 0 then .xChar else .byte))
    (hlabel : appended [(label, t)] = []) (hxmit : t.mem.xmit = s.mem.xmit)
    (hxChar : t.mem.xChar = s.mem.xChar) (hicount : t.mem.icount.tx = s.mem.icount.tx)
    (hdev : Later s.dev t.dev) : TxEffect s label t := by
  rw [newWrites_of_later hdev, List.map_nil] at hitems
  constructor
  · rw [hxmit]
    exact hinRange
  · rw [hitems, hlabel, buffered, hxmit, List.append_nil]
    rfl
  · rw [hitems, hdev.written]
    exact (List.append_nil _).symm
  · exact hdev.dropped
  · rw [hitems, hicount]
    exact (BitVec.add_zero _).symm
  · exact .inl ⟨hitems, hxChar⟩

/-- A call of the driver. -/
theorem effect_sent (hinRange : s.mem.xmit.InRange uartXmitSize)
    (hitems : txItems s label t = (newWrites s t).map (if s.mem.xChar ≠ 0 then .xChar else .byte))
    (hlabel : appended [(label, t)] = []) (h : Sent s t) : TxEffect s label t := by
  cases h with
  | nothing xmit xChar icount dev =>
    exact effect_nothing hinRange hitems hlabel xmit xChar icount dev
  | xChar hx xmit xChar icount dev =>
    rw [newWrites_of_laterSent dev, if_pos hx, List.map_singleton] at hitems
    constructor
    · rw [xmit]
      exact hinRange
    · rw [hitems, hlabel, buffered, xmit, List.append_nil]
      rfl
    · rw [hitems, dev.written]
      rfl
    · exact dev.dropped
    · rw [hitems, icount]
      rfl
    · exact .inr ⟨_, hitems, ⟨hx, rfl⟩, xChar⟩
  | byte hx hne xmit xChar icount dev =>
    rw [newWrites_of_laterSent dev, if_neg (not_not.mpr hx), List.map_singleton] at hitems
    have hpop : t.mem.xmit = s.mem.xmit.pop uartXmitSize := by
      rw [xmit, nextTail_eq]
      rfl
    constructor
    · rw [hpop]
      exact hinRange.pop
    · rw [hitems, hlabel, buffered, buffered, hpop, List.append_nil, Circular.contents_pop hinRange hne]
      rfl
    · rw [hitems, dev.written]
      rfl
    · exact dev.dropped
    · rw [hitems, icount]
      rfl
    · exact .inr ⟨_, hitems, hx, xChar⟩

theorem txStep_effect (hinRange : s.mem.xmit.InRange uartXmitSize) (h : TxStep s label t) :
    TxEffect s label t := by
  cases label with
  | append b =>
    obtain ⟨hroom, rfl⟩ := h
    have hitems : txItems s (.append b) (s.withMem (s.mem.appendByte b)) = [] := by
      rw [txItems, newWrites_of_later (by exact .refl s.dev), List.map_nil]
    constructor
    · exact hinRange.push b
    · rw [hitems]
      exact Circular.contents_push hinRange hroom
    · rw [hitems]
      exact (List.append_nil _).symm
    · rfl
    · rw [hitems]
      exact (BitVec.add_zero _).symm
    · exact .inl ⟨hitems, rfl⟩
  | setXChar b =>
    obtain rfl := h
    constructor
    · exact hinRange
    · exact (List.append_nil _).symm
    · exact (List.append_nil _).symm
    · rfl
    · exact (BitVec.add_zero _).symm
    · exact .inr ⟨.request b, rfl, trivial, rfl⟩
  | setStopped stopped =>
    obtain rfl := h
    exact effect_nothing hinRange rfl rfl rfl rfl rfl (.refl _)
  | startTx => exact effect_sent hinRange rfl rfl (sent_startTx h)
  | iteration =>
    obtain ⟨busy, hrun⟩ := h
    exact effect_sent hinRange rfl rfl (sent_iteration hrun)
  | device a =>
    obtain rfl := h
    exact effect_nothing hinRange rfl rfl rfl rfl rfl (later_act _ a)

/-- An item leaves the request that it leaves pending. -/
theorem TxItem.follows_pending (item next : TxItem)
    (h : TxItem.Follows (.request item.pending) next) : TxItem.Follows item next := by
  cases item with
  | request b => exact h
  | xChar b =>
    cases next with
    | request b' => trivial
    | xChar b' => exact h.1 rfl
    | byte b' => trivial
  | byte b =>
    cases next with
    | request b' => trivial
    | xChar b' => exact h.1 rfl
    | byte b' => trivial

/-- The stream of a run from a state with any buffer. -/
structure TxRunEffect (s : Sys) (l : List (TxLabel × Sys)) : Prop where
  stream : (txHistory s l).filterMap TxItem.ofBuffer ++ buffered (finish s l) =
    buffered s ++ appended l
  written : (finish s l).dev.written = s.dev.written ++ (txHistory s l).filterMap TxItem.written
  dropped : (finish s l).dev.dropped = s.dev.dropped
  icount : (finish s l).mem.icount.tx =
    s.mem.icount.tx + BitVec.ofNat 32 ((txHistory s l).filterMap TxItem.written).length
  xChars : List.IsChain TxItem.Follows (.request s.mem.xChar :: txHistory s l)
  pending : (finish s l).mem.xChar =
    ((txHistory s l).getLast?.map TxItem.pending).getD s.mem.xChar

theorem appended_cons (label : TxLabel) (t : Sys) (l : List (TxLabel × Sys)) :
    appended ((label, t) :: l) = appended [(label, t)] ++ appended l := by
  cases label <;> rfl

theorem txRun_effect (hinRange : s.mem.xmit.InRange uartXmitSize) (hrun : Run TxStep s l) :
    TxRunEffect s l := by
  induction hrun with
  | nil s =>
    constructor
    · exact (List.append_nil _).symm
    · exact (List.append_nil _).symm
    · rfl
    · exact (BitVec.add_zero _).symm
    · exact .singleton _
    · rfl
  | @cons s t label l first _ ih =>
    have hstep := txStep_effect hinRange first
    have hrest := ih hstep.inRange
    constructor
    · rw [txHistory, finish, List.filterMap_append, List.append_assoc, hrest.stream,
        appended_cons, ← List.append_assoc, ← List.append_assoc, hstep.stream]
    · rw [txHistory, finish, List.filterMap_append, hrest.written, hstep.written,
        List.append_assoc]
    · rw [finish, hrest.dropped, hstep.dropped]
    · rw [txHistory, finish, List.filterMap_append, List.length_append, hrest.icount,
        hstep.icount, BitVec.ofNat_add, BitVec.add_assoc]
    · obtain ⟨hnone, hsame⟩ | ⟨item, hitem, hfollows, hpending⟩ := hstep.items
      · rw [txHistory, hnone, List.nil_append, ← hsame]
        exact hrest.xChars
      · rw [txHistory, hitem, List.singleton_append, List.isChain_cons_cons]
        have hchain := hrest.xChars
        rw [hpending] at hchain
        exact ⟨hfollows, hchain.imp_head fun h => item.follows_pending _ h⟩
    · obtain ⟨hnone, hsame⟩ | ⟨item, hitem, -, hpending⟩ := hstep.items
      · rw [txHistory, hnone, List.nil_append, finish, hrest.pending, hsame]
      · rw [txHistory, hitem, List.singleton_append, finish, hrest.pending, hpending,
          List.getLast?_cons]
        cases (txHistory t l).getLast? with
        | none => rfl
        | some next => rfl

/-- In every interleaving of the serial core, the driver and the device, the bytes of the
buffer go out in order, each requested character goes out once before any further byte
unless it is replaced, and no byte meets a full FIFO. -/
theorem transmit_stream (s : Sys) (h : TxFresh s) (l : List (TxLabel × Sys))
    (hrun : Run TxStep s l) : StreamRight s l := by
  have heffect := txRun_effect h.inRange hrun
  have hempty : buffered s = [] := (Circular.contents_eq_nil h.inRange).mpr h.empty
  constructor
  · rw [heffect.stream, hempty, List.nil_append]
  · rw [heffect.written, h.written, List.nil_append]
  · rw [← h.xChar]
    exact heffect.xChars
  · rw [heffect.pending, h.xChar]
  · rw [heffect.dropped, h.dropped]
  · rw [heffect.icount, heffect.written, h.icount, h.written, List.nil_append, BitVec.zero_add]

/-! The interrupt handler, between whose iterations the lock is free. -/

theorem exec_counted {n : ℕ} {x : ℕ ⊕ ℕ} :
    Exec (withMemory uartCore) (do
      let busy ← isrIteration
      return if busy = true then .inl (n + 1) else .inr (n + 1)) s x t ↔
    ∃ busy, Exec (withMemory uartCore) isrIteration s busy t ∧
      x = if busy = true then .inl (n + 1) else .inr (n + 1) := by
  simp only [exec_bind_iff, exec_pure]
  constructor
  · rintro ⟨busy, u, hrun, rfl, rfl⟩
    exact ⟨busy, hrun, rfl⟩
  · rintro ⟨busy, hrun, rfl⟩
    exact ⟨busy, t, hrun, rfl, rfl⟩

/-- The loop of `ulite_isr` is a run of iterations, whose number it counts. -/
theorem iterations_run {n c : ℕ}
    (h : Exec (withMemory uartCore) (Prog.iterate (fun n : ℕ => do
      let busy ← isrIteration
      return if busy = true then .inl (n + 1) else .inr (n + 1)) n) s c t) :
    ∃ l, Run TxStep s l ∧ (∀ i ∈ l, i.1 = .iteration) ∧ finish s l = t ∧
      c = n + l.length ∧ 0 < l.length := by
  obtain ⟨n', u, hloop, c', v, hlast, rfl, rfl⟩ := h
  obtain ⟨busy, hrun, hc⟩ := exec_counted.mp hlast
  obtain rfl : c = n' + 1 := by
    cases busy with
    | false => exact Sum.inr.inj hc
    | true => cases hc
  generalize hp : (n, s) = p at hloop
  induction hloop using Relation.ReflTransGen.head_induction_on generalizing n s with
  | refl =>
    obtain ⟨rfl, rfl⟩ := Prod.mk.inj hp
    exact ⟨[(.iteration, t)], .cons ⟨busy, hrun⟩ (.nil t), by simp, rfl, rfl, Nat.one_pos⟩
  | @head p q hfirst _ ih =>
    subst hp
    obtain ⟨busy', hrun', hq⟩ := exec_counted.mp hfirst
    obtain ⟨l, hl, hlabels, hend, hlength, -⟩ := ih rfl
    refine ⟨(.iteration, q.2) :: l, .cons ⟨busy', hrun'⟩ hl, ?_, hend, ?_, Nat.succ_pos _⟩
    · exact List.forall_mem_cons.mpr ⟨rfl, hlabels⟩
    · have hnext : q.1 = n + 1 := by
        cases busy' with
        | false => cases hq
        | true => exact Sum.inl.inj hq
      rw [hlength, hnext, List.length_cons]
      omega

/-- A call of `ulite_isr` with nothing between its iterations is a run of these. It pushes the
received characters if there was more than one. -/
theorem isr_run {r : Irqreturn} (h : Exec (withMemory uartCore) uliteIsr s r t) :
    ∃ l, Run TxStep s l ∧ (∀ i ∈ l, i.1 = .iteration) ∧
      ((1 < l.length ∧ r = .handled ∧ t = (finish s l).noted .flipBufferPush) ∨
        (l.length = 1 ∧ r = .none ∧ t = finish s l)) := by
  simp only [uliteIsr, exec_bind_iff, exec_ite, exec_note, exec_pure] at h
  obtain ⟨n, u, hloop, h⟩ := h
  obtain ⟨l, hl, hlabels, hend, hlength, hpos⟩ := iterations_run hloop
  refine ⟨l, hl, hlabels, ?_⟩
  obtain ⟨hmore, _, v, rfl, rfl, rfl⟩ | ⟨hone, rfl, rfl⟩ := h
  · left
    exact ⟨by omega, rfl, by rw [hend]⟩
  · right
    exact ⟨by omega, rfl, hend.symm⟩

end Transmit

section Runs

def started (s : Sys) : Sys :=
  ((run (onDevice UartRegs.answer calm) 1 uliteStartTx s).getD ((), s)).2

theorem txStep_started {s : Sys}
    (h : run (onDevice UartRegs.answer calm) 1 uliteStartTx s = some ((), started s)) :
    TxStep s .startTx (started s) :=
  (onDevice_refines UartRegs.answer calm).exec _ ((watch_sound _ _).1 _ _ h)

/-- A byte is appended and a character requested, and the character goes first. -/
theorem transmit_stream_xChar :
    let s₁ := freshPort.withMem (freshPort.mem.appendByte 0x41)
    let s₂ := s₁.withMem (s₁.mem.withXChar 0x13)
    StreamRight freshPort [(.append 0x41, s₁), (.setXChar 0x13, s₂), (.startTx, started s₂),
      (.startTx, started (started s₂))] ∧ (started (started s₂)).dev.written = [0x13, 0x41] := by
  refine ⟨transmit_stream freshPort ⟨⟨by decide, by decide⟩, rfl, rfl, rfl, rfl, rfl⟩ _ ?_, rfl⟩
  apply Run.cons
  · exact ⟨by decide, rfl⟩
  apply Run.cons
  · rfl
  apply Run.cons
  · exact txStep_started rfl
  apply Run.cons
  · exact txStep_started rfl
  exact .nil _

end Runs

end PynqPrio.Uart
