import PynqPrio.IicEncoding

/-!
# What a transfer has sent and received

The invariant that links the cursor to the trace: how many words of the encoding have
been written, and how far each read buffer has been filled. It holds as long as no message
is started while a read is outstanding; the statements about the words need in addition
that every message was started with room for two words.
-/
namespace PynqPrio.Iic
open Programs Programs.Driver Programs.Prog

section Steps

/-- No message of the transfer has the flag `I2C_M_NOSTART`. -/
def Transfer.Starts (x : Transfer) : Prop := ∀ m ∈ x.msgs, ¬m.NoStart

instance (x : Transfer) : Decidable x.Starts :=
  inferInstanceAs (Decidable (∀ m ∈ x.msgs, ¬m.NoStart))

/-- The first `n` words of the encoding have been written. -/
def Sent (x : Transfer) (s : Sys Unit) (n : ℕ) : Prop :=
  x.Starts → StartsReady s.trace → dtrWords s.trace = x.encoding.take n

/-- The words written so far are a prefix of the encoding. -/
def SentPrefix (x : Transfer) (s : Sys Unit) : Prop :=
  x.Starts → StartsReady s.trace → dtrWords s.trace <+: x.encoding

/-- What an atomic step guarantees: an outstanding read stays the outstanding one and does
not lose bytes until the transfer ends, a byte is stored at the position of the
outstanding read, and the words written stay a prefix of the encoding. -/
structure StepOk (x : Transfer) (s t : Sys Unit) : Prop where
  isolated : ∀ j r, s.mem.rxMsg = some j → x.msgs[j]? = some r → s.mem.rxPos < r.len.toNat →
    (t.mem.rxMsg = some j ∧ s.mem.rxPos ≤ t.mem.rxPos) ∨ t.mem.txMsg = none
  stored : ∀ j pos byte, t.trace = s.trace ++ [.store j pos byte] →
    s.mem.rxMsg = some j ∧ pos = s.mem.rxPos
  sent : SentPrefix x t

variable {x : Transfer} {s t : Sys Unit} {n : ℕ}

theorem Sent.toPrefix (h : Sent x s n) : SentPrefix x s := by
  intro hx hs
  rw [h hx hs]
  exact List.take_prefix _ _

/-- The event is neither a word sent nor a byte received. -/
def Event.Silent : Event → Prop
  | .dtr _ | .store .. => False
  | _ => True

theorem dtrWords_silent {e : Event} (he : e.Silent) : dtrWords (s.trace ++ [e]) =
    dtrWords s.trace := by
  rw [dtrWords_append]
  cases e <;> first | exact he.elim | exact List.append_nil _

theorem storesOf_silent {e : Event} (he : e.Silent) (j : ℕ) : storesOf j (s.trace ++ [e]) =
    storesOf j s.trace := by
  rw [storesOf_append]
  cases e <;> first | exact he.elim | exact List.append_nil _

theorem Sent.noted (h : Sent x s n) {e : Event} (he : e.Silent) : Sent x (s.noted e) n := by
  intro hx hs
  rw [Config.noted_trace, dtrWords_silent he]
  exact h hx (startsReady_append.mp hs).1

/-- Writing the next word of the encoding. -/
theorem Sent.dtr (h : Sent x s n) {word : BitVec 16}
    (hword : x.Starts → StartsReady s.trace → x.encoding[n]? = some word) :
    Sent x (s.noted (.dtr word)) (n + 1) := by
  intro hx hs
  have hs' := (startsReady_append.mp hs).1
  have hwords := h hx hs'
  rw [Config.noted_trace, dtrWords_append, hwords, List.take_add_one, hword hx hs']
  rfl

theorem Sent.stored (h : Sent x s n) (j : ℕ) (pos : ℤ) (byte : BitVec 8) :
    Sent x (s.noted (.store j pos byte)) n := by
  intro hx hs
  rw [Config.noted_trace, dtrWords_append, h hx (startsReady_append.mp hs).1]
  exact List.append_nil _

theorem SentPrefix.noted (h : SentPrefix x s) {e : Event} (he : e.Silent) :
    SentPrefix x (s.noted e) := by
  intro hx hs
  rw [Config.noted_trace, dtrWords_silent he]
  exact h hx (startsReady_append.mp hs).1

/-- A step that leaves the outstanding read alone and stores nothing. -/
theorem stepOk_kept (hrx : t.mem.rxMsg = s.mem.rxMsg) (hpos : s.mem.rxPos ≤ t.mem.rxPos)
    (htrace : ∀ j pos byte, t.trace ≠ s.trace ++ [.store j pos byte]) (h : SentPrefix x t) :
    StepOk x s t :=
  ⟨fun _ _ hj _ _ => .inl ⟨hrx.trans hj, hpos⟩, fun j pos byte ht => absurd ht (htrace j pos byte),
    h⟩

theorem stepOk_noted {e : Event} (he : ∀ j pos byte, e ≠ .store j pos byte)
    (h : SentPrefix x (s.noted e)) : StepOk x s (s.noted e) := by
  refine stepOk_kept rfl le_rfl ?_ h
  intro j pos byte ht
  exact he j pos byte (List.singleton_inj.mp (List.append_cancel_left ht))

theorem stepOk_silent {e : Event} (he : e.Silent) (h : SentPrefix x s) :
    StepOk x s (s.noted e) := by
  refine stepOk_noted ?_ (h.noted he)
  intro j pos byte heq
  rw [heq] at he
  exact he

theorem trace_ne_store (s : Sys Unit) (d : XiicI2c) (j : ℕ) (pos : ℤ) (byte : BitVec 8) :
    (s.withMem d).trace ≠ s.trace ++ [.store j pos byte] := by
  intro h
  have hlength := congrArg List.length h
  simp at hlength

theorem stepOk_withMem {d : XiicI2c} (hrx : d.rxMsg = s.mem.rxMsg) (hpos : s.mem.rxPos ≤ d.rxPos)
    (h : SentPrefix x s) : StepOk x s (s.withMem d) :=
  stepOk_kept hrx hpos (trace_ne_store s d) h

/-- With no read outstanding the memory may change at will. -/
theorem stepOk_none {d : XiicI2c} (hrx : s.mem.rxMsg = none) (h : SentPrefix x s) :
    StepOk x s (s.withMem d) :=
  ⟨by simp [hrx], fun j pos byte ht => absurd ht (trace_ne_store s d j pos byte), h⟩

end Steps

section Invariants

/-- Nothing relevant was added to the trace but words. -/
structure SameReads (s t : Sys Unit) : Prop where
  stores : ∀ j, storesOf j t.trace = storesOf j s.trace
  ready : StartsReady t.trace → StartsReady s.trace

/-- The buffers of the write messages are the caller's. -/
def WriteBuffers (x : Transfer) (d : XiicI2c) : Prop :=
  ∀ j m, x.msgs[j]? = some m → ¬m.IsRead → d.bufs j = x.bufs j

/-- Every buffer was filled in order, and all reads before message `i` are complete. -/
structure Reads (x : Transfer) (s : Sys Unit) (i : ℕ) : Prop where
  inOrder : ∀ j, ∃ n, storesOf j s.trace = upTo n
  later : ∀ j, i < j → storesOf j s.trace = []
  earlier : StartsReady s.trace → ∀ j r, j < i → x.msgs[j]? = some r → r.IsRead →
    storesOf j s.trace = upTo r.len.toNat

/-- The cursor is at message `i`, of which nothing has been done yet. -/
structure Entering (x : Transfer) (s : Sys Unit) (i : ℕ) (m : I2cMsg) : Prop where
  cursor : At x s.mem i m
  bufs : WriteBuffers x s.mem
  sent : Sent x s (x.wordsBefore i).length
  reads : Reads x s i
  current : storesOf i s.trace = []

/-- The cursor is at message `i`, which has been started. -/
structure Tracks (x : Transfer) (s : Sys Unit) (i : ℕ) (m : I2cMsg) : Prop where
  live : Live x s.mem i m
  bufs : WriteBuffers x s.mem
  sent : Sent x s (x.written i m s.mem.txPos)
  started : m.IsRead → StartsReady s.trace → s.mem.txPos = m.len.toNat
  reads : Reads x s i
  reading : ∀ j, s.mem.rxMsg = some j → j = i ∧ storesOf i s.trace = upTo s.mem.rxPos.toNat
  complete : StartsReady s.trace → m.IsRead → s.mem.rxMsg = none →
    storesOf i s.trace = upTo m.len.toNat

/-- Every word was written and every read buffer was filled. -/
structure Completed (x : Transfer) (l : List Event) : Prop where
  words : dtrWords l = x.encoding
  filled : ∀ j r, x.msgs[j]? = some r → r.IsRead → storesOf j l = upTo r.len.toNat

/-- The transfer has ended, and it is complete if it ended well. -/
structure Ended (x : Transfer) (s : Sys Unit) : Prop where
  idle : Idle s.mem
  sent : SentPrefix x s
  inOrder : ∀ j, ∃ n, storesOf j s.trace = upTo n
  done : s.mem.state = .done → x.Starts → StartsReady s.trace → Completed x s.trace

/-- What holds between two runs. -/
def Tracked (x : Transfer) (s : Sys Unit) : Prop := Ended x s ∨ ∃ i m, Tracks x s i m

variable {x : Transfer} {s t : Sys Unit} {i n : ℕ} {m : I2cMsg}

theorem SameReads.rfl' : SameReads s s := ⟨fun _ => rfl, id⟩

theorem SameReads.trans {u : Sys Unit} (h : SameReads s t) (h' : SameReads t u) :
    SameReads s u :=
  ⟨fun j => (h'.stores j).trans (h.stores j), fun hu => h.ready (h'.ready hu)⟩

theorem sameReads_silent {e : Event} (he : e.Silent) : SameReads s (s.noted e) :=
  ⟨storesOf_silent he, fun h => (startsReady_append.mp h).1⟩

theorem sameReads_dtr (word : BitVec 16) : SameReads s (s.noted (.dtr word)) := by
  refine ⟨fun j => ?_, fun h => (startsReady_append.mp h).1⟩
  rw [Config.noted_trace, storesOf_append]
  exact List.append_nil _

theorem sameReads_withMem (d : XiicI2c) : SameReads s (s.withMem d) := ⟨fun _ => rfl, id⟩

theorem Reads.same (h : Reads x s i) (hst : SameReads s t) : Reads x t i := by
  refine ⟨fun j => ?_, fun j hj => ?_, fun hs j r hj hr hread => ?_⟩
  · rw [hst.stores j]
    exact h.inOrder j
  · rw [hst.stores j]
    exact h.later j hj
  · rw [hst.stores j]
    exact h.earlier (hst.ready hs) j r hj hr hread

theorem Tracked.sentPrefix (h : Tracked x s) : SentPrefix x s := by
  rcases h with h | ⟨i, m, h⟩
  · exact h.sent
  · exact h.sent.toPrefix

theorem Tracked.inOrder (h : Tracked x s) (j : ℕ) : ∃ n, storesOf j s.trace = upTo n := by
  rcases h with h | ⟨i, m, h⟩
  · exact h.inOrder j
  · exact h.reads.inOrder j

/-- Only the transmit position has changed since. -/
theorem Tracks.moveTx (h : Tracks x s i m) {p : ℕ} (hp : p ≤ m.len.toNat)
    (hmem : t.mem = { s.mem with txPos := p }) (hst : SameReads s t)
    (hle : s.mem.txPos ≤ p) (hsent : Sent x t (x.written i m p)) : Tracks x t i m := by
  refine ⟨hmem ▸ h.live.setTxPos hp, by rw [hmem]; exact h.bufs, by rw [hmem]; exact hsent, ?_,
    h.reads.same hst, ?_, ?_⟩
  · intro hread hready
    have hpos := h.started hread (hst.ready hready)
    rw [hmem]
    show p = m.len.toNat
    omega
  · rw [hmem, hst.stores i]
    exact h.reading
  · rw [hmem, hst.stores i]
    exact fun hready => h.complete (hst.ready hready)

theorem Tracks.silent (h : Tracks x s i m) {e : Event} (he : e.Silent) :
    Tracks x (s.noted e) i m :=
  h.moveTx h.live.txPos rfl (sameReads_silent he) le_rfl (h.sent.noted he)

theorem Entering.silent (h : Entering x s i m) {e : Event} (he : e.Silent) :
    Entering x (s.noted e) i m := by
  refine ⟨h.cursor, h.bufs, h.sent.noted he, h.reads.same (sameReads_silent he), ?_⟩
  rw [Config.noted_trace, storesOf_silent he]
  exact h.current

/-- Before a message is started, the positions and the state do not matter. -/
theorem Entering.withMem (h : Entering x s i m) {d : XiicI2c} (hat : At x d i m)
    (hbufs : d.bufs = s.mem.bufs) : Entering x (s.withMem d) i m := by
  refine ⟨hat, ?_, h.sent, h.reads.same (sameReads_withMem d), h.current⟩
  rw [Config.withMem_mem, WriteBuffers, hbufs]
  exact h.bufs

/-- A message that is completely transmitted hands over to the next one. -/
theorem Tracks.next (h : Tracks x s i m) (hrx : s.mem.rxMsg = none)
    (hpos : StartsReady s.trace → s.mem.txPos = m.len.toNat) (hn : 1 < s.mem.nmsgs) :
    ∃ m', Entering x (s.withMem { s.mem with
      nmsgs := u32 (s.mem.nmsgs - 1), txMsg := s.mem.txMsg.map (· + 1) }) (i + 1) m' := by
  obtain ⟨m', hat⟩ := h.live.toAt.next hn
  refine ⟨m', hat, h.bufs, ?_, ⟨h.reads.inOrder, ?_, ?_⟩, h.reads.later _ (Nat.lt_succ_self i)⟩
  · intro hx hs
    have hsent := h.sent hx hs
    rw [hpos hs, written_len h.live.msg] at hsent
    exact hsent
  · intro j hj
    exact h.reads.later j (by omega)
  · intro hs j r hj hr hread
    rcases Nat.lt_succ_iff_lt_or_eq.mp hj with hlt | rfl
    · exact h.reads.earlier hs j r hlt hr hread
    · obtain rfl : m = r := Option.some.inj (h.live.msg.symm.trans hr)
      exact h.complete hs hread hrx

/-- The last message with nothing left to send or to receive. -/
theorem Tracks.completed (h : Tracks x s i m) (hn : s.mem.nmsgs = 1) (hrx : s.mem.rxMsg = none)
    (hpos : s.mem.txPos = m.len.toNat) (hx : x.Starts) (hs : StartsReady s.trace) :
    Completed x s.trace := by
  have hlast : i + 1 = x.msgs.length := by
    have := h.live.nmsgs
    omega
  constructor
  · have hsent := h.sent hx hs
    rw [hpos, written_len h.live.msg, hlast, ← encoding_length, List.take_length] at hsent
    exact hsent
  · intro j r hr hread
    have hlt : j < x.msgs.length := (List.getElem?_eq_some_iff.mp hr).1
    rcases Nat.lt_succ_iff_lt_or_eq.mp (show j < i + 1 by omega) with hj | rfl
    · exact h.reads.earlier hs j r hj hr hread
    · obtain rfl : m = r := Option.some.inj (h.live.msg.symm.trans hr)
      exact h.complete hs hread hrx

end Invariants

section Fill

variable {x : Transfer} {s : Sys Unit} {i : ℕ} {m : I2cMsg}

/-- The byte at position `p` of the cursor's message is the next word of the encoding. -/
theorem encoding_byte {p : ℕ} (hm : x.msgs[i]? = some m) (hwrite : ¬m.IsRead)
    (hp : p < m.len.toNat) (hi : i < x.msgs.length) :
    x.encoding[x.written i m p]? = some
      (if i + 1 = x.msgs.length ∧ p + 1 = m.len.toNat then
        (x.bufs i p).setWidth 16 ||| txDynStopMask else (x.bufs i p).setWidth 16) := by
  have hword : (x.wordsOf i)[p + 1]? = some ((x.bufs i p).setWidth 16) := by
    rw [wordsOf_write hm hwrite]
    simp [hp]
  have hlength : (x.wordsOf i).length = m.len.toNat + 1 := by
    rw [wordsOf_write hm hwrite]
    simp
  rw [Transfer.written, if_neg hwrite, Nat.add_assoc, Nat.add_comm 1 p,
    encoding_getElem? hi hword, hlength]
  simp only [Nat.add_right_cancel_iff]

theorem written_succ (hwrite : ¬m.IsRead) (p : ℕ) :
    x.written i m (p + 1) = x.written i m p + 1 := by
  simp only [Transfer.written, if_neg hwrite, Nat.add_assoc]

/-- One word of the fill loop. -/
theorem fillTxWord_sent (h : Live x s.mem i m) (hbufs : WriteBuffers x s.mem)
    (hlt : s.mem.txPos < m.len.toNat) (hsent : Sent x s (x.written i m s.mem.txPos))
    (hstarted : m.IsRead → ¬StartsReady s.trace) :
    Meets anyDevice (StepOk x) fillTxWord (fun _ t => SameReads s t ∧
      t.mem = { s.mem with txPos := s.mem.txPos + 1 } ∧
      Sent x t (x.written i m (s.mem.txPos + 1))) s := by
  have hlen := len_lt m
  have hpos : u32 ((s.mem.txPos : ℤ) + 1) = s.mem.txPos + 1 := by
    simp only [u32]
    omega
  have hload := hsent.noted (e := .load i s.mem.txPos) trivial
  have hreads : SameReads s ((s.noted (.load i s.mem.txPos)).withMem
      { s.mem with txPos := s.mem.txPos + 1 }) :=
    (sameReads_silent (e := .load i s.mem.txPos) trivial).trans (sameReads_withMem _)
  simp only [fillTxWord, meets_bind, meets_any_get, meets_loadTxByte h.txMsg, hpos]
  refine ⟨stepOk_silent trivial hsent.toPrefix, fun _ =>
    stepOk_withMem rfl le_rfl hload.toPrefix, ?_⟩
  have hmem : (((s.noted (.load i s.mem.txPos)).withMem
      { s.mem with txPos := s.mem.txPos + 1 }) : Sys Unit).mem =
      { s.mem with txPos := s.mem.txPos + 1 } := rfl
  replace hload : Sent x ((s.noted (.load i s.mem.txPos)).withMem
      { s.mem with txPos := s.mem.txPos + 1 }) (x.written i m s.mem.txPos) := hload
  generalize (s.noted (.load i s.mem.txPos)).withMem
      { s.mem with txPos := s.mem.txPos + 1 } = u at hreads hmem hload ⊢
  have hu : u.mem.txMsg = some i := by rw [hmem]; exact h.txMsg
  have hm : u.mem.msgs[i]? = some m := by rw [hmem]; exact h.toAt.get
  refine (meets_txSpace hu hm).mpr ⟨stepOk_silent trivial hload.toPrefix, ?_⟩
  have hspace := hload.noted (e := .txSpace m.len.toNat u.mem.txPos) trivial
  have hreads' := hreads.trans (sameReads_silent (e := .txSpace m.len.toNat u.mem.txPos) trivial)
  -- the word that is written is the next one of the encoding
  have hword : ¬m.IsRead → x.encoding[x.written i m s.mem.txPos]? = some
      (if u32 ((m.len.toNat : ℤ) - u.mem.txPos) = 0 ∧ u.mem.nmsgs = 1 then
        (s.mem.bufs i s.mem.txPos).setWidth 16 ||| txDynStopMask
      else (s.mem.bufs i s.mem.txPos).setWidth 16) := by
    intro hwrite
    rw [encoding_byte h.msg hwrite hlt h.toAt.lt, ← hbufs i m h.msg hwrite]
    have hnmsgs := h.nmsgs
    have hcond : (i + 1 = x.msgs.length ∧ s.mem.txPos + 1 = m.len.toNat) ↔
        u32 ((m.len.toNat : ℤ) - u.mem.txPos) = 0 ∧ u.mem.nmsgs = 1 := by
      rw [hmem, u32_sub hlen hlt]
      show _ ↔ m.len.toNat - (s.mem.txPos + 1) = 0 ∧ s.mem.nmsgs = 1
      omega
    rw [if_congr hcond rfl rfl]
  have hnext : ∀ word, (¬m.IsRead → x.encoding[x.written i m s.mem.txPos]? = some word) →
      Sent x ((u.noted (.txSpace m.len.toNat u.mem.txPos)).noted (.dtr word))
        (x.written i m (s.mem.txPos + 1)) := by
    intro word hword
    by_cases hread : m.IsRead
    · exact fun _ hs => absurd ((hreads'.trans (sameReads_dtr word)).ready hs) (hstarted hread)
    · rw [written_succ hread]
      exact hspace.dtr fun _ _ => hword hread
  refine (meets_setreg16 _ _).mpr ⟨stepOk_noted (by simp) (hnext _ hword).toPrefix,
    hreads'.trans (sameReads_dtr _), hmem, hnext _ hword⟩

/-- The fill loop moves the cursor inside its message and writes the words in between. -/
theorem fill_sent (h : Live x s.mem i m) (hbufs : WriteBuffers x s.mem)
    (hsent : Sent x s (x.written i m s.mem.txPos))
    (hstarted : m.IsRead → StartsReady s.trace → s.mem.txPos = m.len.toNat) :
    Meets anyDevice (StepOk x) xiicFillTxFifo (fun _ t => SameReads s t ∧
      ∃ p, s.mem.txPos ≤ p ∧ p ≤ m.len.toNat ∧ t.mem = { s.mem with txPos := p } ∧
        Sent x t (x.written i m p)) s := by
  have hpos := h.txPos
  refine meets_fillTxFifo (J := fun k t => SameReads s t ∧
    t.mem = { s.mem with txPos := s.mem.txPos + k } ∧ Sent x t (x.written i m (s.mem.txPos + k)))
    h.txMsg h.toAt.get hpos (stepOk_silent trivial hsent.toPrefix) ?_ ?_ ?_
  · exact ⟨sameReads_silent trivial, rfl, hsent.noted trivial⟩
  · intro k t hk hpost
    obtain ⟨hst, hmem, ht⟩ := hpost
    have htpos : t.mem.txPos = s.mem.txPos + k := by rw [hmem]
    have hlive : Live x t.mem i m := by
      rw [hmem]
      exact h.setTxPos (by omega)
    refine (fillTxWord_sent hlive ?_ (by omega) (by rw [htpos]; exact ht) ?_).imp ?_
    · rw [hmem]
      exact hbufs
    · intro hread hs
      have := hstarted hread (hst.ready hs)
      omega
    · intro _ u hpost
      obtain ⟨htu, humem, hu⟩ := hpost
      rw [htpos] at humem hu
      refine ⟨hst.trans htu, ?_, hu⟩
      rw [humem, hmem, Nat.add_assoc]
  · intro k t hk hpost
    obtain ⟨hst, hmem, ht⟩ := hpost
    exact ⟨hst, _, Nat.le_add_right _ _, by omega, hmem, ht⟩

end Fill

section Read

variable {x : Transfer} {s : Sys Unit} {i : ℕ} {m : I2cMsg}

theorem storesOf_store (j i : ℕ) (pos : ℤ) (byte : BitVec 8) :
    storesOf j (s.trace ++ [.store i pos byte]) =
      if i = j then storesOf j s.trace ++ [pos] else storesOf j s.trace := by
  rw [storesOf_append]
  by_cases h : i = j
  · simp [storesOf, h]
  · simp [storesOf, h]

/-- The outstanding read is the message at the cursor. -/
theorem Tracks.isRead (h : Tracks x s i m) (hrx : s.mem.rxMsg = some i) : m.IsRead := by
  obtain ⟨_, r, hr, hread⟩ := h.live.rx i hrx
  obtain rfl : m = r := Option.some.inj (h.live.msg.symm.trans hr)
  exact hread

/-- One byte of the read loop. -/
theorem storeRxByte_tracks (h : Tracks x s i m) (hrx : s.mem.rxMsg = some i)
    (hlt : s.mem.rxPos < m.len.toNat) :
    Meets anyDevice (StepOk x) storeRxByte (fun _ t => Tracks x t i m ∧
      t.mem = { s.mem with rxPos := s.mem.rxPos + 1, bufs := t.mem.bufs }) s := by
  have hread := h.isRead hrx
  have hpos := h.live.rxPos i m hrx h.live.msg
  refine (meets_storeRxByte hrx).mpr fun byte => ?_
  have hsent := h.sent.stored i s.mem.rxPos byte
  have hfilled : storesOf i (s.trace ++ [.store i s.mem.rxPos byte]) =
      upTo (s.mem.rxPos + 1).toNat := by
    rw [storesOf_store, if_pos rfl, (h.reading i hrx).2,
      show (s.mem.rxPos + 1).toNat = s.mem.rxPos.toNat + 1 by omega, upTo_succ,
      Int.toNat_of_nonneg hpos.1]
  have hother : ∀ j, j ≠ i → storesOf j (s.trace ++ [.store i s.mem.rxPos byte]) =
      storesOf j s.trace := by
    intro j hj
    rw [storesOf_store, if_neg (Ne.symm hj)]
  have hready : StartsReady (s.trace ++ [.store i s.mem.rxPos byte]) → StartsReady s.trace :=
    fun hs => (startsReady_append.mp hs).1
  refine ⟨⟨?_, ?_, hsent.toPrefix⟩, fun _ => stepOk_withMem rfl ?_ hsent.toPrefix, ?_, rfl⟩
  · exact fun _ _ hj _ _ => .inl ⟨hj, le_rfl⟩
  · intro j pos byte' htrace
    obtain ⟨rfl, rfl, _⟩ := Event.store.inj (List.singleton_inj.mp (List.append_cancel_left htrace))
    exact ⟨hrx, rfl⟩
  · show s.mem.rxPos ≤ s.mem.rxPos + 1
    omega
  refine ⟨h.live.setRxPos hrx h.live.msg ⟨by omega, by omega⟩ _, ?_, hsent,
    fun hm hs => h.started hm (hready hs), ⟨?_, ?_, ?_⟩, ?_, ?_⟩
  · intro j w hw hwrite
    have hne : j ≠ i := by
      rintro rfl
      obtain rfl : m = w := Option.some.inj (h.live.msg.symm.trans hw)
      exact hwrite hread
    funext p
    show (if j = i ∧ (p : ℤ) = s.mem.rxPos then byte else s.mem.bufs j p) = x.bufs j p
    rw [if_neg (fun hc => hne hc.1), h.bufs j w hw hwrite]
  · intro j
    by_cases hj : j = i
    · subst hj
      exact ⟨_, hfilled⟩
    · obtain ⟨n, hn⟩ := h.reads.inOrder j
      exact ⟨n, (hother j hj).trans hn⟩
  · intro j hj
    exact (hother j (by omega)).trans (h.reads.later j hj)
  · intro hs j r hj hr hread'
    exact (hother j (by omega)).trans (h.reads.earlier (hready hs) j r hj hr hread')
  · intro j hj
    exact ⟨(h.reading j hj).1, hfilled⟩
  · intro _ _ hnone
    exact absurd (hrx.symm.trans hnone) (by simp)

theorem readRx_tracks (h : Tracks x s i m) (hrx : s.mem.rxMsg = some i) :
    Meets anyDevice (StepOk x) xiicReadRx
      (fun _ t => Tracks x t i m ∧ t.mem.rxMsg = some i) s := by
  have hpos := h.live.rxPos i m hrx h.live.msg
  have hsilent : StepOk x s (s.noted (.rxSpace m.len.toNat s.mem.rxPos)) :=
    stepOk_silent trivial h.sent.toPrefix
  refine meets_readRx (J := fun k t => Tracks x t i m ∧ t.mem.rxMsg = some i ∧
    t.mem.rxPos = s.mem.rxPos + k) hrx h.live.toAt.get hpos hsilent ?_ ?_ ?_
  · exact ⟨h.silent trivial, hrx, by simp⟩
  · intro k t hk hpost
    obtain ⟨ht, htrx, htpos⟩ := hpost
    refine (storeRxByte_tracks ht htrx (by omega)).imp ?_
    intro _ u hpost
    obtain ⟨hu, hmem⟩ := hpost
    refine ⟨hu, by rw [hmem]; exact htrx, ?_⟩
    rw [hmem]
    push_cast
    show t.mem.rxPos + 1 = _
    omega
  · intro k t hk hpost
    obtain ⟨ht, htrx, htpos⟩ := hpost
    refine (meets_rxSpace htrx ht.live.toAt.get).mpr
      ⟨stepOk_silent trivial ht.sent.toPrefix, ht.silent trivial, htrx⟩

end Read

section Start

variable {x : Transfer} {s : Sys Unit} {i : ℕ} {m : I2cMsg}

/-- A message may be started: nothing of it has been done and no read is outstanding. -/
structure Startable (x : Transfer) (s : Sys Unit) (i : ℕ) (m : I2cMsg) : Prop
    extends Entering x s i m where
  rxMsg : s.mem.rxMsg = none
  txPos : s.mem.txPos = 0
  rxPos : s.mem.rxPos = 0
  state : s.mem.state = .start

theorem sent_of_noStart (hm : x.msgs[i]? = some m) (hno : m.NoStart) (t : Sys Unit) (n : ℕ) :
    Sent x t n :=
  fun hx _ => absurd hno (hx m (List.mem_of_getElem? hm))

/-- The first word of a read starts it. -/
theorem Startable.encoding_readAddress (h : Startable x s i m) (hread : m.IsRead) :
    x.encoding[(x.wordsBefore i).length]? =
      some ((m.addr <<< 1) ||| readOperation ||| txDynStartMask) := by
  have hwords := wordsOf_read h.cursor.msg hread
  have hword := encoding_getElem? (k := 0) h.cursor.lt (by rw [hwords]; rfl)
  rw [Nat.add_zero, hwords, if_neg (by simp)] at hword
  rw [hword, I2cMsg.startWord, if_pos hread]

/-- The second word of a read is its length, with the stop in the last message. -/
theorem Startable.encoding_readCount (h : Startable x s i m) (hread : m.IsRead) :
    x.encoding[(x.wordsBefore i).length + 1]? =
      some (m.len ||| if s.mem.nmsgs = 1 then txDynStopMask else 0) := by
  have hwords := wordsOf_read h.cursor.msg hread
  have hword := encoding_getElem? (k := 1) h.cursor.lt (by rw [hwords]; rfl)
  have hnmsgs := h.cursor.nmsgs
  rw [hword, hwords]
  by_cases hn : s.mem.nmsgs = 1
  · rw [if_pos ⟨by omega, rfl⟩, if_pos hn]
  · rw [if_neg (fun hc => hn (by omega)), if_neg hn]
    simp

/-- A read message is started once its two words are written. -/
theorem Startable.reading (h : Startable x s i m) (hread : m.IsRead) {t : Sys Unit}
    (hst : SameReads s t) (hmem : t.mem = { s.mem with rxMsg := s.mem.txMsg })
    (ht : Sent x t (x.written i m m.len.toNat)) :
    Tracks x (t.withMem { t.mem with txPos := m.len.toNat }) i m := by
  have hpos : t.mem.rxPos = 0 := by rw [hmem]; exact h.rxPos
  have hrx : t.mem.rxMsg = some i := by rw [hmem]; exact h.cursor.txMsg
  have hat : At x t.mem i m := by
    rw [hmem]
    refine ⟨h.cursor.msgs, h.cursor.txMsg, h.cursor.msg, h.cursor.nmsgs, ?_⟩
    intro j hj
    obtain rfl : i = j := Option.some.inj (h.cursor.txMsg.symm.trans hj)
    exact ⟨le_rfl, m, h.cursor.msg, hread⟩
  refine ⟨⟨⟨hat.msgs, hat.txMsg, hat.msg, hat.nmsgs, hat.rx⟩, le_rfl, ?_, ?_⟩, ?_, ht,
    fun _ _ => rfl, h.reads.same (hst.trans (sameReads_withMem _)), ?_, ?_⟩
  · intro j r _ _
    simp [hpos]
  · show t.mem.state = .start
    rw [hmem]
    exact h.state
  · show WriteBuffers x t.mem
    rw [hmem]
    exact h.bufs
  · intro j hj
    refine ⟨Option.some.inj (hj.symm.trans hrx), ?_⟩
    show storesOf i t.trace = upTo t.mem.rxPos.toNat
    rw [hst.stores i, h.current, hpos]
    rfl
  · intro _ _ hnone
    exact absurd (hrx.symm.trans hnone) (by simp)

/-- The part of `xiic_start_recv` after the address word. -/
theorem countWord_tracks (h : Startable x s i m) (hread : m.IsRead) {t : Sys Unit}
    (hst : SameReads s t) (hmem : t.mem = { s.mem with rxMsg := s.mem.txMsg })
    (ht : Sent x t ((x.wordsBefore i).length + 1)) :
    Meets anyDevice (StepOk x) (do
      xiicIrqClrEn intrBnbMask
      let d ← get
      xiicSetreg16 .dtr (m.len ||| if d.nmsgs = 1 then txDynStopMask else 0)
      if d.nmsgs = 1 then xiicIrqClrEn intrBnbMask
      modify fun d => { d with txPos := m.len.toNat }) (fun _ t => Tracks x t i m) t := by
  have hcount : x.written i m m.len.toNat = (x.wordsBefore i).length + 1 + 1 := by
    rw [written_len h.cursor.msg, wordsBefore_succ, List.length_append,
      wordsOf_read h.cursor.msg hread]
    rfl
  have hnmsgs : t.mem.nmsgs = s.mem.nmsgs := by rw [hmem]
  have hsent : Sent x (t.noted (.dtr (m.len ||| if t.mem.nmsgs = 1 then txDynStopMask else 0)))
      (x.written i m m.len.toNat) := by
    rw [hcount, hnmsgs]
    exact ht.dtr fun _ _ => h.encoding_readCount hread
  have htracks := h.reading hread (hst.trans (sameReads_dtr _)) hmem hsent
  have hstep : StepOk x (t.noted (.dtr (m.len ||| if t.mem.nmsgs = 1 then txDynStopMask else 0)))
      ((t.noted (.dtr _)).withMem { t.mem with txPos := m.len.toNat }) :=
    stepOk_withMem rfl le_rfl hsent.toPrefix
  simp only [meets_bind, meets_irqClrEn, meets_any_get, meets_setreg16, meets_ite,
    meets_any_modify]
  exact ⟨stepOk_noted (by simp) hsent.toPrefix, fun _ => ⟨fun _ => hstep, htracks⟩,
    fun _ => ⟨fun _ => hstep, htracks⟩⟩

theorem startRecv_tracks (h : Startable x s i m) (hread : m.IsRead) :
    Meets anyDevice (StepOk x) xiicStartRecv (fun _ t => Tracks x t i m) s := by
  have hat : (s.withMem { s.mem with rxMsg := s.mem.txMsg }).mem.msgs[i]? = some m := h.cursor.get
  simp only [xiicStartRecv, meets_bind, meets_any_modify, meets_any_get, meets_irqClrEn,
    meets_setreg8, meets_ite]
  refine ⟨fun _ => stepOk_none h.rxMsg h.sent.toPrefix,
    (meets_deref (i := i) (m := m) h.cursor.txMsg hat).mpr ⟨fun _ => ?_, fun hno => ?_⟩⟩
  · have hsent : Sent x ((s.withMem { s.mem with rxMsg := s.mem.txMsg }).noted
        (.dtr ((m.addr <<< 1) ||| readOperation ||| txDynStartMask)))
        ((x.wordsBefore i).length + 1) :=
      Sent.dtr (s := s.withMem _) h.sent fun _ _ => h.encoding_readAddress hread
    refine (meets_setreg16 _ _).mpr ⟨stepOk_noted (by simp) hsent.toPrefix, ?_⟩
    have hrest := countWord_tracks h hread ((sameReads_withMem _).trans (sameReads_dtr _)) rfl hsent
    simpa only [meets_bind, meets_irqClrEn, meets_any_get, meets_ite, meets_any_modify] using hrest
  · have hrest := countWord_tracks h hread (sameReads_withMem _) rfl
      (sent_of_noStart h.cursor.msg (not_not.mp hno) _ _)
    simpa only [meets_bind, meets_irqClrEn, meets_any_get, meets_ite, meets_any_modify] using hrest

theorem Startable.live (h : Startable x s i m) : Live x s.mem i m := by
  refine ⟨h.cursor, ?_, ?_, h.state⟩
  · rw [h.txPos]
    exact Nat.zero_le _
  · intro j r hj _
    exact absurd (h.rxMsg.symm.trans hj) (by simp)

/-- A write message is started once its address word is written. -/
theorem Startable.tracks (h : Startable x s i m) (hwrite : ¬m.IsRead) {t : Sys Unit} {p : ℕ}
    (hst : SameReads s t) (hmem : t.mem = { s.mem with txPos := p }) (hp : p ≤ m.len.toNat)
    (hsent : Sent x t (x.written i m p)) : Tracks x t i m := by
  have hrx : t.mem.rxMsg = none := by rw [hmem]; exact h.rxMsg
  refine ⟨hmem ▸ h.live.setTxPos hp, by rw [hmem]; exact h.bufs, by rw [hmem]; exact hsent,
    fun hread => absurd hread hwrite, h.reads.same hst, ?_, fun _ hread => absurd hread hwrite⟩
  intro j hj
  exact absurd (hrx.symm.trans hj) (by simp)

/-- The first word of a write, which is the last word of an empty last message. -/
theorem Startable.encoding_writeAddress (h : Startable x s i m) (hwrite : ¬m.IsRead) :
    x.encoding[(x.wordsBefore i).length]? = some
      (if s.mem.nmsgs = 1 ∧ m.len = 0 then
        ((m.addr <<< 1) &&& 0xfe) ||| writeOperation ||| txDynStartMask ||| txDynStopMask
      else ((m.addr <<< 1) &&& 0xfe) ||| writeOperation ||| txDynStartMask) := by
  have hwords := wordsOf_write h.cursor.msg hwrite
  have hword := encoding_getElem? (k := 0) h.cursor.lt (by rw [hwords]; rfl)
  have hi := h.cursor.lt
  have hnmsgs := h.cursor.nmsgs
  have hcond : (i + 1 = x.msgs.length ∧ 0 + 1 = (x.wordsOf i).length) ↔
      s.mem.nmsgs = 1 ∧ m.len = 0 := by
    rw [hwords, ← BitVec.toNat_inj]
    simp only [List.length_cons, List.length_map, List.length_range]
    show _ ↔ _ ∧ m.len.toNat = 0
    omega
  rw [Nat.add_zero, if_congr hcond rfl rfl, I2cMsg.startWord, if_neg hwrite] at hword
  exact hword

theorem startSend_tracks (h : Startable x s i m) (hwrite : ¬m.IsRead) :
    Meets anyDevice (StepOk x) xiicStartSend (fun _ t => Tracks x t i m ∧
      t.mem.rxMsg = none ∧ t.mem.rxPos = 0 ∧ t.mem.nmsgs = s.mem.nmsgs) s := by
  have hzero : x.written i m 0 = (x.wordsBefore i).length + 1 := by
    rw [Transfer.written, if_neg hwrite]
  have hfill : ∀ t : Sys Unit, SameReads s t → t.mem = s.mem →
      Sent x t ((x.wordsBefore i).length + 1) →
      Meets anyDevice (StepOk x) xiicFillTxFifo (fun _ t => Tracks x t i m ∧
        t.mem.rxMsg = none ∧ t.mem.rxPos = 0 ∧ t.mem.nmsgs = s.mem.nmsgs) t := by
    intro t hst hmem ht
    have hlive : Live x t.mem i m := hmem ▸ h.live
    have hpos : t.mem.txPos = 0 := by rw [hmem]; exact h.txPos
    refine (fill_sent hlive (hmem ▸ h.bufs) (by rw [hpos, hzero]; exact ht)
      fun hread => absurd hread hwrite).imp ?_
    intro _ u hpost
    obtain ⟨htu, p, _, hp, humem, hu⟩ := hpost
    rw [hmem] at humem
    refine ⟨h.tracks hwrite (hst.trans htu) humem hp hu, ?_, ?_, by rw [humem]⟩
    · rw [humem]
      exact h.rxMsg
    · rw [humem]
      exact h.rxPos
  simp only [xiicStartSend, meets_bind, meets_any_get, meets_irqClr, meets_ite, meets_irqClrEn]
  refine (meets_deref (i := i) (m := m) h.cursor.txMsg h.cursor.get).mpr
    ⟨fun _ => ?_, fun hno => ?_⟩
  · have hsent := h.sent.dtr fun _ _ => h.encoding_writeAddress hwrite
    refine (meets_setreg16 _ _).mpr ⟨stepOk_noted (by simp) hsent.toPrefix, ?_⟩
    exact hfill _ (sameReads_dtr _) rfl hsent
  · exact hfill _ SameReads.rfl' rfl (sent_of_noStart h.cursor.msg (not_not.mp hno) _ _)

/-- The state at the head of the loop of `__xiic_start_xfer` after the first iteration. -/
def Sending (x : Transfer) (s : Sys Unit) : Prop :=
  s.mem.rxMsg = none ∧ s.mem.rxPos = 0 ∧
    ∃ i m, Tracks x s i m ∧ s.mem.txPos = m.len.toNat

theorem startCurrent_tracks (h : Startable x s i m) :
    Meets anyDevice (StepOk x) startCurrent (fun r t => match r with
      | .inl st => st.1 = false ∧ Sending x t
      | .inr _ => ∃ i m, Tracks x t i m) s := by
  simp only [startCurrent, meets_bind, meets_any_get]
  refine (meets_deref (i := i) (m := m) h.cursor.txMsg h.cursor.get).mpr ?_
  simp only [meets_ite, meets_bind, meets_pure, meets_txFifoSpace]
  refine ⟨fun hread => ?_, fun hwrite => ?_⟩
  · refine (startRecv_tracks h hread).imp ?_
    intro _ t ht
    exact ⟨i, m, ht⟩
  · refine (startSend_tracks h hwrite).imp ?_
    intro _ t hpost
    obtain ⟨ht, hrx, hpos, _⟩ := hpost
    refine (meets_txSpace ht.live.txMsg ht.live.toAt.get).mpr
      ⟨stepOk_silent trivial ht.sent.toPrefix, fun _ => ⟨i, m, ht.silent trivial⟩, fun hspace _ => ?_⟩
    refine ⟨trivial, hrx, hpos, i, m, ht.silent trivial, ?_⟩
    rw [u32_sub (len_lt m) ht.live.txPos] at hspace
    have hle := ht.live.txPos
    show t.mem.txPos = m.len.toNat
    omega

/-- The invariant of the loop of `__xiic_start_xfer`. -/
def LoopHead (x : Transfer) (first : Bool) (fifoSpace : ℤ) (s : Sys Unit) : Prop :=
  if first then (∃ i m, Startable x s i m) ∧ (StartsReady s.trace → 2 ≤ fifoSpace)
  else Sending x s

/-- A message for which there was no room has not been started. -/
theorem Startable.tracks_of_full (h : Startable x s i m) (hfull : ¬StartsReady s.trace) :
    Tracks x s i m := by
  refine ⟨h.live, h.bufs, fun _ hs => absurd hs hfull, fun _ hs => absurd hs hfull,
    h.reads, ?_, fun hs => absurd hs hfull⟩
  intro j hj
  exact absurd (h.rxMsg.symm.trans hj) (by simp)

theorem startXferBody_tracks {first : Bool} {fifoSpace : ℤ} (h : LoopHead x first fifoSpace s) :
    Meets anyDevice (StepOk x) (startXferBody first fifoSpace) (fun r t => match r with
      | .inl st => LoopHead x st.1 st.2 t
      | .inr _ => ∃ i m, Tracks x t i m) s := by
  have hafter : ∀ t i m, Startable x t i m →
      Meets anyDevice (StepOk x) startCurrent (fun r t => match r with
        | .inl st => LoopHead x st.1 st.2 t
        | .inr _ => ∃ i m, Tracks x t i m) t := by
    intro t i m ht
    refine (startCurrent_tracks ht).imp ?_
    intro r u hu
    cases r with
    | inl st =>
      obtain ⟨hfalse, hu⟩ := hu
      simpa only [LoopHead, hfalse, Bool.false_eq_true, if_false] using hu
    | inr returned => exact hu
  simp only [startXferBody, nextMsg, meets_bind, meets_any_get, meets_ite, meets_any_modify,
    meets_pure]
  cases first with
  | true =>
    obtain ⟨⟨i, m, hstart⟩, hroom⟩ := h
    refine ⟨fun _ => ⟨fun hc => absurd hc (by simp), fun _ => hafter s i m hstart⟩, fun hc => ?_⟩
    refine ⟨i, m, hstart.tracks_of_full fun hs => hc ⟨hroom hs, .inl rfl⟩⟩
  | false =>
    obtain ⟨hrx, hpos, i, m, htracks, hlen⟩ := h
    refine ⟨fun hc => ⟨fun _ => ?_, fun hc' => absurd rfl hc'⟩, fun _ => ⟨i, m, htracks⟩⟩
    have hn : 1 < s.mem.nmsgs := by simpa using hc.2
    obtain ⟨m', hnext⟩ := htracks.next hrx (fun _ => hlen) hn
    refine ⟨fun _ => stepOk_none hrx htracks.sent.toPrefix,
      fun _ => stepOk_none hrx hnext.sent.toPrefix, hafter _ (i + 1) m' ?_⟩
    refine ⟨hnext.withMem ⟨hnext.cursor.msgs, hnext.cursor.txMsg, hnext.cursor.msg,
      hnext.cursor.nmsgs, hnext.cursor.rx⟩ rfl, hrx, rfl, hpos, htracks.live.state⟩

end Start

end PynqPrio.Iic
