import PynqPrio.IicReadEnd
import PynqPrio.IicTransfers

/-!
# The branches of a run at the end of a read

What the device keeps while it works by itself, what a run finds, and what each branch of the
run does with it.
-/
namespace PynqPrio.Iic
open Programs Programs.Driver Programs.Prog

namespace ReadEndRegs

/-- The predicate is kept by what the device does by itself. -/
def Stable (I : ReadEndRegs → Prop) : Prop := ∀ e e', I e → e.Step e' → I e'

theorem Stable.works {I : ReadEndRegs → Prop} (hI : Stable I) {e e' : ReadEndRegs} (h : I e)
    (hworks : e.Works e') : I e' := by
  induction hworks with
  | refl => exact h
  | tail _ hstep ih => exact hI _ _ ih hstep

/-- The interrupts at the end of a read are enabled. -/
def Heard (e : ReadEndRegs) : Prop := e.iier &&& recvMask = recvMask

/-- The bytes from position `n` on are in the FIFO or still to arrive, and what the device has
raised is in order. -/
structure Flows (bytes : List (BitVec 8)) (n : ℕ) (e : ReadEndRegs) : Prop where
  split : bytes.drop n = e.fifo ++ e.coming
  depth : e.fifo.length ≤ 16
  nacked : e.nacked = true → e.coming = []
  stopped : e.stopped = true → e.nacked = true
  bnb : e.bnb = e.stopped

/-- The read goes on at position `n`: the threshold is at the last byte that fits, and the
negative acknowledge has not been serviced. -/
structure Receives (bytes : List (BitVec 8)) (n : ℕ) (e : ReadEndRegs) : Prop
    extends Flows bytes n e where
  rfd : e.rfd + 1 = min (bytes.length - n) 16
  txError : e.txError = e.nacked

/-- RX_FULL is raised for the bytes that the FIFO holds. -/
def Filled (e : ReadEndRegs) : Prop := e.rxFull = true → e.fifo.length = e.rfd + 1

/-- Nothing more comes from the device. -/
structure Over (e : ReadEndRegs) : Prop where
  txError : e.txError = false
  rxFull : e.rxFull = false
  bnb : e.bnb = false
  nacked : e.nacked = true
  stopped : e.stopped = true
  fifo : e.fifo = []
  coming : e.coming = []

/-- What has been raised since is raised still, and what could be raised once has been. -/
structure Later (e e' : ReadEndRegs) : Prop where
  txError : e.txError = true → e'.txError = true
  rxFull : e.rxFull = true → e'.rxFull = true
  bnb : e.bnb = true → e'.bnb = true
  nacked : e.nacked = true → e'.nacked = true
  stopped : e.stopped = true → e'.stopped = true
  once : e.nacked = true → e'.txError = true → e.txError = true

theorem Later.refl (e : ReadEndRegs) : Later e e :=
  ⟨id, id, id, id, id, fun _ => id⟩

theorem Later.trans {e e' e'' : ReadEndRegs} (h : Later e e') (h' : Later e' e'') : Later e e'' :=
  ⟨h'.txError ∘ h.txError, h'.rxFull ∘ h.rxFull, h'.bnb ∘ h.bnb, h'.nacked ∘ h.nacked,
    h'.stopped ∘ h.stopped, fun hn he => h.once hn (h'.once (h.nacked hn) he)⟩

variable {bytes : List (BitVec 8)} {n : ℕ} {e e' : ReadEndRegs}

theorem Step.later (h : e.Step e') : Later e e' := by
  cases h with
  | drain => exact ⟨id, id, id, id, id, fun _ => id⟩
  | arrive => exact ⟨id, id, id, id, id, fun _ => id⟩
  | rxFull => exact ⟨id, fun _ => rfl, id, id, id, fun _ => id⟩
  | txError _ _ hfirst =>
    exact ⟨fun _ => rfl, id, id, fun _ => rfl, id, fun hn => absurd (hfirst.symm.trans hn) nofun⟩
  | bnb => exact ⟨id, id, fun _ => rfl, id, fun _ => rfl, fun _ => id⟩

theorem stable_later (e₀ : ReadEndRegs) : Stable (Later e₀) :=
  fun _ _ h hstep => h.trans hstep.later

theorem stable_heard : Stable Heard := by
  intro e e' h hstep
  cases hstep <;> exact h

theorem stable_flows : Stable (Flows bytes n) := by
  intro e e' h hstep
  cases hstep with
  | drain => exact ⟨h.split, h.depth, h.nacked, h.stopped, h.bnb⟩
  | @arrive b rest _ hcoming hroom =>
    refine ⟨?_, ?_, fun hn => ?_, h.stopped, h.bnb⟩
    · rw [h.split, hcoming]
      simp
    · simp only [List.length_append, List.length_singleton]
      omega
    · exact absurd (hcoming.symm.trans (h.nacked hn)) nofun
  | rxFull => exact ⟨h.split, h.depth, h.nacked, h.stopped, h.bnb⟩
  | txError _ hcoming => exact ⟨h.split, h.depth, fun _ => hcoming, fun _ => rfl, h.bnb⟩
  | bnb _ hnacked => exact ⟨h.split, h.depth, h.nacked, fun _ => hnacked, rfl⟩

theorem stable_receives : Stable (Receives bytes n) := by
  intro e e' h hstep
  refine ⟨stable_flows _ _ h.toFlows hstep, ?_, ?_⟩
  · cases hstep <;> exact h.rfd
  · cases hstep with
    | txError => rfl
    | _ => exact h.txError

/-- A full FIFO, or one with the last byte, takes no more. -/
theorem stable_filled : Stable fun e => Receives bytes n e ∧ Filled e := by
  rintro e e' ⟨h, hfilled⟩ hstep
  refine ⟨stable_receives _ _ h hstep, ?_⟩
  cases hstep with
  | drain => exact hfilled
  | @arrive b rest _ hcoming hroom =>
    intro hfull
    have hlength := congrArg List.length h.split
    rw [hcoming] at hlength
    simp only [List.length_drop, List.length_append, List.length_cons] at hlength
    have hrfd := h.rfd
    have hfifo := hfilled hfull
    omega
  | rxFull _ hlen => exact fun _ => hlen
  | txError => exact hfilled
  | bnb => exact hfilled

theorem Flows.fifo_nil (h : Flows bytes n e) (hn : bytes.length ≤ n) : e.fifo = [] ∧ e.coming = [] := by
  have hsplit := h.split
  rw [List.drop_eq_nil_of_le hn] at hsplit
  exact List.append_eq_nil_iff.mp hsplit.symm

/-- Behind the last byte RX_FULL is not raised again. -/
theorem stable_complete (hn : bytes.length ≤ n) :
    Stable fun e => Flows bytes n e ∧ e.rxFull = false := by
  rintro e e' ⟨h, hfull⟩ hstep
  refine ⟨stable_flows _ _ h hstep, ?_⟩
  cases hstep with
  | rxFull _ hlen =>
    rw [(h.fifo_nil hn).1] at hlen
    exact absurd hlen nofun
  | _ => exact hfull

theorem stable_over : Stable Over := by
  intro e e' h hstep
  cases hstep with
  | drain => exact ⟨h.txError, h.rxFull, h.bnb, h.nacked, h.stopped, h.fifo, h.coming⟩
  | arrive _ hcoming => exact absurd (h.coming.symm.trans hcoming) nofun
  | rxFull _ hlen =>
    rw [h.fifo] at hlen
    exact absurd hlen nofun
  | txError _ _ hfirst => exact absurd (h.nacked.symm.trans hfirst) nofun
  | bnb _ _ _ hfirst => exact absurd (h.stopped.symm.trans hfirst) nofun

theorem Flows.withIier (h : Flows bytes n e) (v : BitVec 32) :
    Flows bytes n { e with iier := v } :=
  ⟨h.split, h.depth, h.nacked, h.stopped, h.bnb⟩

theorem Later.withIier (h : Later e e') (v : BitVec 32) : Later e { e' with iier := v } :=
  h.trans ⟨id, id, id, id, id, fun _ => id⟩

/-- The end of a read is heard without the half-empty interrupt. -/
theorem Heard.withoutHalf (h : Heard e) : Heard { e with iier := e.iier &&& ~~~intrTxHalfMask } := by
  have hmask : ~~~intrTxHalfMask &&& recvMask = recvMask := by decide
  rw [Heard, BitVec.and_assoc, hmask]
  exact h

theorem xor_of_zero {clr mask : BitVec 32} (h : clr &&& mask = 0) (raised : Bool) :
    xor (clr &&& mask != 0) raised = raised := by
  simp [h]

theorem xor_of_ne {clr mask : BitVec 32} (h : clr &&& mask ≠ 0) {raised : Bool}
    (hr : raised = true) : xor (clr &&& mask != 0) raised = false := by
  have hne : (clr &&& mask != 0) = true := by simpa using h
  rw [hne, hr]
  rfl

theorem stable_waits : Stable (Waits bytes) := by
  intro e e' h hstep
  obtain ⟨l, -, hl⟩ := Works.drained (.single hstep) h.reading
  exact Wrote.waits ⟨l, e.iier, hl⟩ h

end ReadEndRegs

section Entry

/-- What a run finds: the word of `IISR` and the enabled interrupts in it. -/
structure Finds (e : ReadEndRegs) (isr pend : BitVec 32) : Prop where
  arbLost : pend &&& intrArbLostMask = 0
  isrTxError : Shows isr intrTxErrorMask e.txError
  txError : Shows pend intrTxErrorMask e.txError
  rxFull : Shows pend intrRxFullMask e.rxFull
  bnb : Shows pend intrBnbMask e.bnb

/-- A run behind its RX branch. -/
def processSent (out : Bool) (pend clr : BitVec 32) : Xiic Unit := do
  let (clr, out) ← processBnb out pend clr
  let clr ← processTx out pend clr
  xiicSetreg32 .iisr clr

/-- A run behind its first two accesses. -/
def processPending (isr pend : BitVec 32) : Xiic Unit := do
  processError pend
  let (clr, out) ← processRx isr pend 0
  processSent out pend clr

variable {s : Sys ReadEndRegs}

theorem Shows.enabled {v ier mask : BitVec 32} {raised : Bool} (h : Shows v mask raised)
    (hier : raised = true → ier &&& mask = mask) : Shows (v &&& ier) mask raised := by
  cases raised with
  | false =>
    have hzero : v &&& mask = 0 := not_not.mp fun hne => absurd (h.mp hne) nofun
    have hpend : v &&& ier &&& mask = 0 := by
      rw [BitVec.and_assoc, BitVec.and_comm ier, ← BitVec.and_assoc, hzero]
      exact BitVec.zero_and
    exact ⟨fun hne => absurd hpend hne, nofun⟩
  | true =>
    rw [Shows, BitVec.and_assoc, hier rfl]
    exact h

theorem ReadEndRegs.Heard.enables {e : ReadEndRegs} (h : e.Heard) {mask : BitVec 32}
    (hmask : recvMask &&& mask = mask) : e.iier &&& mask = mask := by
  calc e.iier &&& mask = e.iier &&& (recvMask &&& mask) := by rw [hmask]
    _ = e.iier &&& recvMask &&& mask := (BitVec.and_assoc ..).symm
    _ = mask := by rw [h, hmask]

/-- A run starts with what is raised, if it can be heard. -/
theorem yields_process {Q : Unit → Sys ReadEndRegs → Prop}
    (hheard : s.dev.txError = true ∨ s.dev.rxFull = true ∨ s.dev.bnb = true → s.dev.Heard)
    (h : ∀ isr pend u, u.mem = s.mem → s.dev.Works u.dev → Finds s.dev isr pend →
      Yields (processPending isr pend) Q u) : Yields xiicProcess Q s := by
  refine (meets_bind _ _).mpr ((meets_dev_getreg32 _).mpr ?_)
  rintro isr _ ⟨_, ⟨⟨harb, herr, hfull, hbnb⟩, rfl⟩, hworks⟩
  refine ⟨trivial, (meets_bind _ _).mpr ((meets_dev_getreg32 _).mpr ?_)⟩
  rintro _ e ⟨_, ⟨rfl, rfl⟩, hworks'⟩
  have hier : (s.withDev _).dev.iier = s.dev.iier :=
    ReadEndRegs.Stable.works (I := fun e => e.iier = s.dev.iier)
      (fun _ _ hI hstep => by cases hstep <;> exact hI) rfl hworks
  refine ⟨trivial, (meets_bind _ _).mpr ((meets_onDev_note _).mpr ?_)⟩
  refine h isr _ _ rfl (hworks.trans hworks') ⟨?_, herr, ?_, ?_, ?_⟩
  · exact not_not.mp fun hne => absurd ((harb.enabled nofun).mp hne) nofun
  · rw [hier]
    exact herr.enabled fun hr => (hheard (.inl hr)).enables (by decide)
  · rw [hier]
    exact hfull.enabled fun hr => (hheard (.inr (.inl hr))).enables (by decide)
  · rw [hier]
    exact hbnb.enabled fun hr => (hheard (.inr (.inr hr))).enables (by decide)

end Entry

section Receive

def Stored (j : ℕ) (bytes : List (BitVec 8)) (n : ℕ) (bufs : ℕ → ℕ → BitVec 8) : Prop :=
  ∀ k < n, bytes[k]? = some (bufs j k)

/-- Between two bytes of one call of `xiic_read_rx`, with `c` more bytes in the FIFO at least. -/
structure ReadEndRegs.Pops (bytes : List (BitVec 8)) (n c : ℕ) (e₀ e : ReadEndRegs) : Prop
    extends ReadEndRegs.Flows bytes n e where
  enough : c ≤ e.fifo.length
  txError : e.txError = e.nacked
  heard : e.Heard
  later : e₀.Later e

/-- The state behind one call: the bytes up to position `n` are in the buffer. -/
structure ReadEndRegs.Popped (bytes : List (BitVec 8)) (n : ℕ) (e₀ e : ReadEndRegs) : Prop
    extends ReadEndRegs.Flows bytes n e where
  receives : n < bytes.length → e.Receives bytes n
  heard : e.Heard
  later : e₀.Later e

variable {bytes : List (BitVec 8)} {n c j : ℕ} {e₀ e e' : ReadEndRegs} {s : Sys ReadEndRegs}
  {r : I2cMsg}

theorem ReadEndRegs.stable_pops : ReadEndRegs.Stable (ReadEndRegs.Pops bytes n c e₀) := by
  intro e e' h hstep
  refine ⟨stable_flows _ _ h.toFlows hstep, ?_, ?_, stable_heard _ _ h.heard hstep,
    stable_later e₀ _ _ h.later hstep⟩
  · cases hstep with
    | arrive =>
      have henough := h.enough
      simp only [List.length_append, List.length_singleton]
      omega
    | _ => exact h.enough
  · cases hstep with
    | txError => rfl
    | _ => exact h.txError

theorem ReadEndRegs.stable_popped : ReadEndRegs.Stable (ReadEndRegs.Popped bytes n e₀) :=
  fun _ _ h hstep => ⟨stable_flows _ _ h.toFlows hstep,
    fun hn => stable_receives _ _ (h.receives hn) hstep,
    stable_heard _ _ h.heard hstep, stable_later e₀ _ _ h.later hstep⟩

/-- The first byte of the FIFO is the next one of the read. -/
theorem ReadEndRegs.Pops.pop (h : e₀.Pops bytes n (c + 1) e) : ∃ b rest, e.fifo = b :: rest ∧
    bytes[n]? = some b ∧ e₀.Pops bytes (n + 1) c { e with fifo := rest } := by
  have henough := h.enough
  obtain ⟨b, rest, hfifo⟩ : ∃ b rest, e.fifo = b :: rest :=
    List.exists_cons_of_length_pos (by omega)
  have hsplit := h.split
  have hdepth := h.depth
  rw [hfifo] at hsplit hdepth henough
  simp only [List.length_cons] at hdepth henough
  refine ⟨b, rest, hfifo, ?_, ⟨?_, by simp only; omega, h.nacked, h.stopped, h.bnb⟩,
    by simp only; omega, h.txError, h.heard, ?_⟩
  · have hget := congrArg (fun l => l[0]?) hsplit
    simpa using hget
  · have htail := congrArg List.tail hsplit
    simpa [List.tail_drop] using htail
  · exact h.later.trans ⟨id, id, id, id, id, fun _ => id⟩

/-- The threshold behind a call that leaves bytes missing. -/
theorem rfdValue_toNat {m : ℕ} (hm : 1 ≤ m) : (rfdValue m).toNat + 1 = min m 16 := by
  rw [rfdValue]
  split
  · rename_i hgt
    have hgt' : 16 < m := by exact_mod_cast hgt
    simp only [rxFifoDepth, BitVec.toNat_ofNat]
    omega
  · rename_i hle
    have hle' : m ≤ 16 := by
      have : ¬(m : ℤ) > 16 := hle
      omega
    rw [BitVec.toNat_ofInt]
    omega

/-- A run that RX_FULL has started takes all bytes that the FIFO was to hold. -/
theorem yields_readRx (hp : s.mem.rxMsg = some j) (hm : s.mem.msgs[j]? = some r)
    (hpos : s.mem.rxPos = n) (hlen : bytes.length = r.len.toNat) (hn : n < r.len.toNat)
    (hstored : Stored j bytes n s.mem.bufs) (hdev : s.dev.Receives bytes n) (hheard : s.dev.Heard)
    (hfifo : s.dev.fifo.length = s.dev.rfd + 1) : Yields xiicReadRx (fun _ t =>
      t.mem = { s.mem with rxPos := (n + min (r.len.toNat - n) 16 : ℕ), bufs := t.mem.bufs } ∧
      Stored j bytes (n + min (r.len.toNat - n) 16) t.mem.bufs ∧
      s.dev.Popped bytes (n + min (r.len.toNat - n) 16) t.dev) s := by
  have hcount : s.dev.fifo.length = min (r.len.toNat - n) 16 := by
    rw [hfifo, hdev.rfd, hlen]
  have hread : readCount r n (BitVec.ofNat 8 (s.dev.fifo.length - 1)) =
      min (r.len.toNat - n) 16 := by
    simp only [readCount, BitVec.toNat_ofNat]
    omega
  refine meets_dev_readRx (J := fun v k t => v = BitVec.ofNat 8 (s.dev.fifo.length - 1) ∧
      t.mem = { s.mem with rxPos := (n + k : ℕ), bufs := t.mem.bufs } ∧
      Stored j bytes (n + k) t.mem.bufs ∧
      s.dev.Pops bytes (n + k) (min (r.len.toNat - n) 16 - k) t.dev) hp hm hpos hn.le ?_ ?_ ?_
  · rintro v e ⟨_, ⟨rfl, rfl⟩, hworks⟩
    refine ⟨trivial, rfl, ?_, hstored, ReadEndRegs.stable_pops.works ?_ hworks⟩
    · rw [add_zero, ← hpos]
      rfl
    · exact ⟨hdev.toFlows, by omega, hdev.txError, hheard, .refl _⟩
  · rintro v k t hk ⟨rfl, hmem, hst, hpops⟩
    rw [hread] at hk
    obtain ⟨b, rest, hcons, hbyte, hpops'⟩ := ReadEndRegs.Pops.pop (c := min (r.len.toNat - n) 16 - (k + 1))
      (by rwa [show min (r.len.toNat - n) 16 - (k + 1) + 1 = min (r.len.toNat - n) 16 - k by omega])
    have hrxPos : t.mem.rxPos = (n + k : ℕ) := by rw [hmem]
    refine (meets_dev_storeRxByte (i := j) (by rw [hmem]; exact hp)).mpr ?_
    rintro byte e ⟨e₁, haccess, hworks⟩
    simp only [ReadEndRegs.access, hcons] at haccess
    obtain ⟨rfl, rfl⟩ := haccess
    refine ⟨trivial, rfl, ?_, ?_, ReadEndRegs.stable_pops.works hpops' hworks⟩
    · rw [hmem]
      simp only [Nat.cast_add, Nat.cast_one, add_assoc]
    · intro p hp'
      simp only [hrxPos]
      by_cases hlast : p = n + k
      · rw [if_pos ⟨trivial, by exact_mod_cast hlast⟩, hlast]
        exact hbyte
      · rw [if_neg (fun hc => hlast (by exact_mod_cast hc.2))]
        exact hst p (by omega)
  · rintro v t ⟨rfl, hmem, hst, hpops⟩
    rw [hread] at hmem hst hpops
    have hj : t.mem.rxMsg = some j := by rw [hmem]; exact hp
    have hget : t.mem.msgs[j]? = some r := by rw [hmem]; exact hm
    have hrxPos : t.mem.rxPos = (n + min (r.len.toNat - n) 16 : ℕ) := by rw [hmem]
    refine (meets_bind _ _).mpr ((meets_dev_rxSpace hj hget).mpr ((meets_dev_setreg8 _ _).mpr ?_))
    rintro e ⟨_, rfl, hworks⟩
    refine ⟨trivial, hmem, hst, ReadEndRegs.stable_popped.works ?_ hworks⟩
    refine ⟨⟨hpops.split, hpops.depth, hpops.nacked, hpops.stopped, hpops.bnb⟩, fun hlt => ?_,
      hpops.heard, hpops.later.trans ⟨id, id, id, id, id, fun _ => id⟩⟩
    refine ⟨⟨hpops.split, hpops.depth, hpops.nacked, hpops.stopped, hpops.bnb⟩, ?_, hpops.txError⟩
    have hspace : (r.len.toNat : ℤ) - t.mem.rxPos =
        ((bytes.length - (n + min (r.len.toNat - n) 16) : ℕ) : ℤ) := by
      rw [hrxPos]
      omega
    rw [hspace]
    exact rfdValue_toNat (by omega)

end Receive

section Branches

structure AtEnd (x : Transfer) (r : I2cMsg) (d : XiicI2c) : Prop where
  live : Live x d (x.msgs.length - 1) r
  txPos : d.txPos = r.len.toNat

/-- The two words have the same interrupts, those of the TX FIFO apart. -/
def Agrees (clr clr' : BitVec 32) : Prop :=
  ∀ mask, (intrTxEmptyMask ||| intrTxHalfMask) &&& mask = 0 → clr' &&& mask = clr &&& mask

variable {x : Transfer} {r : I2cMsg} {bytes : List (BitVec 8)} {s : Sys ReadEndRegs} {i : ℕ}
  {m : I2cMsg} {I : ReadEndRegs → Prop}

theorem AtEnd.nmsgs {d : XiicI2c} (h : AtEnd x r d) : d.nmsgs = 1 := by
  have hpos := x.pos
  have hsum := h.live.nmsgs
  omega

theorem AtEnd.space {d : XiicI2c} (h : AtEnd x r d) : u32 ((r.len.toNat : ℤ) - d.txPos) = 0 := by
  rw [u32_sub (len_lt r) h.txPos.le, h.txPos]
  omega

theorem agrees_tx (clr pend : BitVec 32) :
    Agrees clr (clr ||| (pend &&& (intrTxEmptyMask ||| intrTxHalfMask))) := by
  intro mask hmask
  have hzero : pend &&& (intrTxEmptyMask ||| intrTxHalfMask) &&& mask = 0 := by
    rw [BitVec.and_assoc, hmask]
    exact BitVec.and_zero
  rw [BitVec.and_or_distrib_right, hzero]
  exact BitVec.or_zero

/-- What holds whatever the registers read. -/
theorem yields_of_core {α : Type} {p : Xiic α} {Q : α → Sys Unit → Prop}
    (h : Meets anyDevice free p Q s.core) : Yields p (fun a t => Q a t.core) s :=
  ⟨fun _ _ _ _ => trivial, fun _ _ ht => exec_of_meets h ht⟩

/-- The final write. -/
theorem yields_finish (hI : ReadEndRegs.Stable I) {clr : BitVec 32} (h : I (s.dev.flip clr)) :
    Yields (xiicSetreg32 .iisr clr) (fun _ t => t.mem = s.mem ∧ I t.dev) s := by
  refine (meets_dev_setreg32 _ _).mpr ?_
  rintro _ ⟨_, rfl, hworks⟩
  exact ⟨trivial, rfl, hI.works h hworks⟩

theorem yields_irqDis (hI : ReadEndRegs.Stable I) {mask : BitVec 32}
    (hdis : ∀ e, I e → I { e with iier := e.iier &&& ~~~mask }) (h : I s.dev) :
    Yields (xiicIrqDis mask) (fun _ t => t.mem = s.mem ∧ I t.dev) s := by
  refine (meets_bind _ _).mpr ((meets_dev_getreg32 _).mpr ?_)
  rintro _ e ⟨_, ⟨rfl, rfl⟩, hworks⟩
  have hier : e.iier = s.dev.iier :=
    ReadEndRegs.Stable.works (I := fun e => e.iier = s.dev.iier)
      (fun _ _ hI hstep => by cases hstep <;> exact hI) rfl hworks
  refine ⟨trivial, (meets_dev_setreg32 _ _).mpr ?_⟩
  rintro _ ⟨_, rfl, hworks'⟩
  refine ⟨trivial, rfl, hI.works ?_ hworks'⟩
  rw [← hier]
  exact hdis e (hI.works h hworks)

/-- A transmit error without RX_FULL ends the transfer. -/
theorem yields_broken (h : Live x s.mem i m) {isr pend : BitVec 32}
    (herr : pend &&& intrTxErrorMask ≠ 0) (hfull : pend &&& intrRxFullMask = 0) :
    Yields (processPending isr pend) (fun _ t => Idle t.mem ∧ t.mem.state = .error) s := by
  have htx : s.core.mem.txMsg = some i := h.txMsg
  have hreset : Meets anyDevice free (processError pend)
      (fun _ t => Idle t.mem ∧ t.mem.state = .error) s.core := by
    simp only [processError, meets_bind, meets_ite, meets_pure, meets_any_get]
    refine ⟨fun _ => meets_reinit trivial ⟨fun _ => (wakeup_state _).imp ?_,
      fun _ => ⟨fun _ => (wakeup_state _).imp ?_, fun hnone => ?_⟩⟩, fun hc => ?_⟩
    · rintro _ t ⟨hidle, -, hstate, -⟩
      exact ⟨fun hsome => absurd hsome (by simp [hidle.txMsg]), fun _ => ⟨hidle, hstate⟩⟩
    · rintro _ t ⟨hidle, -, hstate, -⟩
      exact ⟨hidle, hstate⟩
    · exact absurd (by simp [htx]) hnone
    · exact absurd (.inr ⟨herr, hfull⟩) hc
  refine yields_of_core (Q := fun _ t => Idle t.mem ∧ t.mem.state = .error)
    ((meets_bind _ _).mpr (hreset.imp ?_))
  rintro _ t ⟨hidle, hstate⟩
  refine (meets_bind _ _).mpr ((processRx_idle hidle _ _ _).imp ?_)
  rintro r₁ _ rfl
  refine (meets_bind _ _).mpr ((processBnb_idle hidle _ _ _).imp ?_)
  rintro r₂ _ rfl
  refine (meets_bind _ _).mpr ((processTx_idle hidle _ _ _).imp ?_)
  rintro clr _ rfl
  exact (meets_setreg32 _ _).mpr ⟨hidle, hstate⟩

/-- With everything sent the TX branch at most disables its interrupt. -/
theorem yields_processTx_end (hI : ReadEndRegs.Stable I)
    (hdis : ∀ e, I e → I { e with iier := e.iier &&& ~~~intrTxHalfMask }) (h : AtEnd x r s.mem)
    (hdev : I s.dev) (out : Bool) (pend clr : BitVec 32) : Yields (processTx out pend clr)
      (fun clr' t => t.mem = s.mem ∧ I t.dev ∧ Agrees clr clr') s := by
  refine (meets_ite _ _ _).mpr ⟨fun _ => (meets_pure _).mpr ⟨rfl, hdev, fun _ _ => rfl⟩, fun _ => ?_⟩
  rw [meets_bind, meets_get, h.live.txMsg]
  refine (meets_ite _ _ _).mpr ⟨fun hnone => absurd hnone (by simp), fun _ => ?_⟩
  have hfill : Yields xiicFillTxFifo (fun _ t => t.mem = s.mem ∧ I t.dev) s := by
    have hnone : ∀ v, fillCount s.mem r v = 0 := by
      intro v
      rw [fillCount, h.txPos, Nat.sub_self]
      exact Nat.zero_min _
    refine meets_dev_fillTxFifo (J := fun _ _ t => t.mem = s.mem ∧ I t.dev) h.live.txMsg
      h.live.toAt.get h.txPos.le ?_ ?_ fun _ _ ht => ht
    · rintro v e ⟨_, ⟨-, rfl⟩, hworks⟩
      exact ⟨trivial, rfl, hI.works hdev hworks⟩
    · intro v k t hk
      rw [hnone] at hk
      exact absurd hk (Nat.not_lt_zero k)
  refine (meets_bind _ _).mpr (hfill.imp ?_)
  rintro _ t ⟨hmem, ht⟩
  have hend : AtEnd x r t.mem := hmem ▸ h
  refine (meets_bind _ _).mpr (((meets_bind _ _).mpr ((meets_dev_txSpace hend.live.txMsg
    hend.live.toAt.get).mpr ?_)).imp (Q := fun _ u => u.mem = s.mem ∧ I u.dev) ?_)
  · refine (meets_ite _ _ _).mpr ⟨fun _ => ?_, fun hne => absurd hend.space hne⟩
    refine (meets_bind _ _).mpr (meets_dev_txFifoSpace.mpr ?_)
    rintro v e ⟨_, ⟨-, rfl⟩, hworks⟩
    have he : I e := hI.works ht hworks
    have hhalf : Yields (xiicIrqDis intrTxHalfMask) (fun _ u => u.mem = s.mem ∧ I u.dev)
        ((t.noted (.txSpace r.len.toNat t.mem.txPos)).withDev e) := by
      refine (yields_irqDis hI hdis (by exact he)).imp ?_
      rintro _ u ⟨humem, hu⟩
      exact ⟨humem.trans hmem, hu⟩
    refine ⟨trivial, (meets_bind _ _).mpr (meets_get.mpr ((meets_ite _ _ _).mpr
      ⟨fun _ => (meets_ite _ _ _).mpr ⟨fun hn => ?_, fun _ => hhalf⟩,
        fun _ => (meets_ite _ _ _).mpr ⟨fun _ => hhalf, fun hn => absurd hend.nmsgs hn⟩⟩))⟩
    have hone : t.mem.nmsgs = 1 := hend.nmsgs
    have hgt : 1 < t.mem.nmsgs := hn
    omega
  · rintro _ u ⟨humem, hu⟩
    exact (meets_pure _).mpr ⟨humem, hu, agrees_tx clr pend⟩

/-- RX_FULL during the read: the buffer goes on, and with the last byte the read is over. -/
theorem yields_processRx_read {n : ℕ} (h : AtEnd x r s.mem)
    (hrx : s.mem.rxMsg = some (x.msgs.length - 1)) (hpos : s.mem.rxPos = n)
    (hlen : bytes.length = r.len.toNat) (hn : n < r.len.toNat)
    (hstored : Stored (x.msgs.length - 1) bytes n s.mem.bufs) (hdev : s.dev.Receives bytes n)
    (hheard : s.dev.Heard) (hfifo : s.dev.fifo.length = s.dev.rfd + 1) {isr pend : BitVec 32}
    (hpend : pend &&& intrRxFullMask ≠ 0) : Yields (processRx isr pend 0) (fun q t =>
      ∃ n', Stored (x.msgs.length - 1) bytes n' t.mem.bufs ∧ s.dev.Popped bytes n' t.dev ∧
        t.mem = { s.mem with rxPos := n', rxMsg := t.mem.rxMsg, bufs := t.mem.bufs } ∧
        n' = n + min (r.len.toNat - n) 16 ∧
        ((n' < r.len.toNat ∧ t.mem.rxMsg = some (x.msgs.length - 1) ∧
            q = (intrRxFullMask, false)) ∨
          (n' = r.len.toNat ∧ t.mem.rxMsg = none ∧
            q = (intrRxFullMask ||| (isr &&& intrTxErrorMask), false)))) s := by
  refine (meets_ite _ _ _).mpr ⟨fun hzero => absurd hzero hpend, fun _ => ?_⟩
  rw [meets_bind, meets_get, hrx]
  refine (meets_ite _ _ _).mpr ⟨fun hnone => absurd hnone (by simp), fun _ => ?_⟩
  have hget : s.mem.msgs[x.msgs.length - 1]? = some r := h.live.toAt.get
  refine (meets_bind _ _).mpr ((yields_readRx hrx hget hpos hlen hn hstored hdev hheard
    hfifo).imp ?_)
  rintro _ t ⟨hmem, hst, hpopped⟩
  have hj : t.mem.rxMsg = some (x.msgs.length - 1) := by rw [hmem]; exact hrx
  have hget' : t.mem.msgs[x.msgs.length - 1]? = some r := by rw [hmem]; exact hget
  have hpos' : t.mem.rxPos = (n + min (r.len.toNat - n) 16 : ℕ) := by rw [hmem]
  refine (meets_bind _ _).mpr ((meets_dev_rxSpace hj hget').mpr ?_)
  refine (meets_ite _ _ _).mpr ⟨fun hspace => (meets_pure _).mpr ?_, fun hspace => ?_⟩
  · refine ⟨_, hst, hpopped, ?_, rfl, .inl ⟨by omega, hj, rfl⟩⟩
    rw [Config.noted_mem, hj, ← hrx]
    exact hmem
  · have hone : t.mem.nmsgs = 1 := by
      rw [hmem]
      exact h.nmsgs
    refine (meets_bind _ _).mpr ((meets_onDev_modify _).mpr ((meets_bind _ _).mpr (meets_get.mpr
      ((meets_ite _ _ _).mpr ⟨fun hgt => ?_, fun _ => (meets_pure _).mpr ?_⟩))))
    · have hgt' : 1 < t.mem.nmsgs := hgt
      omega
    · refine ⟨_, hst, hpopped, ?_, rfl, .inr ⟨by omega, rfl, rfl⟩⟩
      rw [Config.withMem_mem, Config.noted_mem, hmem]

/-- The bus is free behind the last byte: the transfer is done. -/
theorem yields_processBnb_done (hI : ReadEndRegs.Stable I)
    (hdis : ∀ e, I e → I { e with iier := e.iier &&& ~~~intrBnbMask }) (h : AtEnd x r s.mem)
    (hrx : s.mem.rxMsg = none) (hdev : I s.dev) {pend : BitVec 32}
    (hpend : pend &&& intrBnbMask ≠ 0) (clr : BitVec 32) : Yields (processBnb false pend clr)
      (fun q t => q = (clr ||| intrBnbMask, false) ∧ Idle t.mem ∧ t.mem.state = .done ∧
        t.mem.bufs = s.mem.bufs ∧ I t.dev) s := by
  refine (meets_ite _ _ _).mpr ⟨fun hc => absurd hc (by simpa using hpend), fun _ => ?_⟩
  refine (meets_bind _ _).mpr ((yields_irqDis hI hdis hdev).imp ?_)
  rintro _ t ⟨hmem, ht⟩
  have hend : AtEnd x r t.mem := hmem ▸ h
  have hrx' : t.mem.rxMsg = none := hmem ▸ hrx
  have hbufs : t.mem.bufs = s.mem.bufs := by rw [hmem]
  rw [meets_bind, meets_get]
  refine (meets_ite _ _ _).mpr ⟨fun hnone => absurd hnone (by simp [hend.live.txMsg]), fun _ => ?_⟩
  refine (meets_ite _ _ _).mpr ⟨fun _ => ?_, fun hc => absurd ⟨hend.nmsgs, by simp [hrx']⟩ hc⟩
  refine (meets_bind _ _).mpr ((meets_dev_txSpace hend.live.txMsg hend.live.toAt.get).mpr ?_)
  rw [hend.space]
  refine (meets_bind _ _).mpr ((meets_bind _ _).mpr ((meets_onDev_modify _).mpr
    ((meets_onDev_note _).mpr ((meets_pure _).mpr ?_))))
  exact ⟨rfl, ⟨rfl, rfl, rfl⟩, rfl, hbufs, ht⟩

/-- With no transfer the TX branch does nothing. -/
theorem yields_processTx_idle (h : Idle s.mem) (out : Bool) (pend clr : BitVec 32) :
    Yields (processTx out pend clr) (fun clr' t => t = s ∧ Agrees clr clr') s := by
  refine (meets_ite _ _ _).mpr ⟨fun _ => (meets_pure _).mpr ⟨rfl, fun _ _ => rfl⟩, fun _ => ?_⟩
  rw [meets_bind, meets_get, h.txMsg]
  exact (meets_pure _).mpr ⟨rfl, agrees_tx clr pend⟩

end Branches

end PynqPrio.Iic
