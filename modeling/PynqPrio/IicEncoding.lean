import PynqPrio.IicCursor

/-!
# The words of a transfer

The reference encoding of a message list: per message one START word with the address,
then the bytes of a write or the byte count of a read, and the STOP flag on the very
last word. The trace of a run is compared with it word by word.
-/
namespace PynqPrio.Iic
open Programs

section Trace

def dtrWords (l : List Event) : List (BitVec 16) :=
  l.filterMap fun
    | .dtr word => some word
    | _ => none

/-- The positions stored in the buffer of message `j`, in order. -/
def storesOf (j : ℕ) (l : List Event) : List ℤ :=
  l.filterMap fun
    | .store i pos _ => if i = j then some pos else none
    | _ => none

/-- A buffer filled in order up to `n` bytes. -/
def upTo (n : ℕ) : List ℤ := (List.range n).map fun k => (k : ℤ)

theorem dtrWords_append (l l' : List Event) : dtrWords (l ++ l') = dtrWords l ++ dtrWords l' :=
  List.filterMap_append

theorem storesOf_append (j : ℕ) (l l' : List Event) :
    storesOf j (l ++ l') = storesOf j l ++ storesOf j l' :=
  List.filterMap_append

theorem upTo_succ (n : ℕ) : upTo (n + 1) = upTo n ++ [(n : ℤ)] := by
  simp [upTo, List.range_succ]

/-- The entry into `__xiic_start_xfer` finds no read outstanding. -/
def Event.ReadDone : Event → Prop
  | .startXfer _ rxMsg _ => rxMsg = none
  | _ => True

/-- The entry into `__xiic_start_xfer` also finds room for two words. -/
def Event.Ready : Event → Prop
  | .startXfer _ rxMsg fifoSpace => rxMsg = none ∧ 2 ≤ fifoSpace
  | _ => True

instance : DecidablePred Event.ReadDone
  | .startXfer _ rxMsg _ => inferInstanceAs (Decidable (rxMsg = none))
  | .dtr _ | .load .. | .store .. | .txSpace .. | .rxSpace .. | .pend _ | .reinit | .wakeup _
  | .nullPointer => inferInstanceAs (Decidable True)

instance : DecidablePred Event.Ready
  | .startXfer _ rxMsg fifoSpace => inferInstanceAs (Decidable (rxMsg = none ∧ 2 ≤ fifoSpace))
  | .dtr _ | .load .. | .store .. | .txSpace .. | .rxSpace .. | .pend _ | .reinit | .wakeup _
  | .nullPointer => inferInstanceAs (Decidable True)

/-- No message is started while a read is outstanding. -/
def ReadsDone (l : List Event) : Prop := ∀ e ∈ l, e.ReadDone

/-- Every message is started with no read outstanding and with room for two words. -/
def StartsReady (l : List Event) : Prop := ∀ e ∈ l, e.Ready

instance (l : List Event) : Decidable (ReadsDone l) :=
  inferInstanceAs (Decidable (∀ e ∈ l, e.ReadDone))

instance (l : List Event) : Decidable (StartsReady l) :=
  inferInstanceAs (Decidable (∀ e ∈ l, e.Ready))

theorem readsDone_mono (l l' : List Event) (h : l <+: l') (h' : ReadsDone l') :
    ReadsDone l :=
  fun e he => h' e (h.subset he)

theorem StartsReady.readsDone {l : List Event} (h : StartsReady l) : ReadsDone l := by
  intro e he
  have hready := h e he
  cases e with
  | startXfer i rx space => exact hready.1
  | _ => trivial

theorem readsDone_append {l : List Event} {e : Event} :
    ReadsDone (l ++ [e]) ↔ ReadsDone l ∧ e.ReadDone := by
  simp [ReadsDone, or_imp, forall_and]

theorem startsReady_append {l : List Event} {e : Event} :
    StartsReady (l ++ [e]) ↔ StartsReady l ∧ e.Ready := by
  simp [StartsReady, or_imp, forall_and]

end Trace

section Encoding

/-- The word that addresses the slave of a message. -/
def I2cMsg.startWord (m : I2cMsg) : BitVec 16 :=
  if m.IsRead then (m.addr <<< 1) ||| readOperation ||| txDynStartMask
  else ((m.addr <<< 1) &&& 0xfe) ||| writeOperation ||| txDynStartMask

namespace Transfer

variable (x : Transfer)

/-- The words of message `i` without the STOP flag. -/
def wordsOf (i : ℕ) : List (BitVec 16) :=
  match x.msgs[i]? with
  | none => []
  | some m =>
    m.startWord :: if m.IsRead then [m.len]
      else (List.range m.len.toNat).map fun pos => (x.bufs i pos).setWidth 16

/-- The words of the messages before message `i`. -/
def wordsBefore (i : ℕ) : List (BitVec 16) := (List.range i).flatMap x.wordsOf

end Transfer

/-- Set the STOP flag on the last word. -/
def markStop : List (BitVec 16) → List (BitVec 16)
  | [] => []
  | [word] => [word ||| txDynStopMask]
  | word :: word' :: l => word :: markStop (word' :: l)

/-- The reference encoding of a transfer. -/
def Transfer.encoding (x : Transfer) : List (BitVec 16) :=
  markStop (x.wordsBefore x.msgs.length)

theorem markStop_length (l : List (BitVec 16)) : (markStop l).length = l.length := by
  fun_induction markStop l with
  | case1 => rfl
  | case2 word => rfl
  | case3 word word' l ih => simp [ih]

theorem markStop_getElem? (l : List (BitVec 16)) (n : ℕ) :
    (markStop l)[n]? =
      if n + 1 = l.length then l[n]?.map (· ||| txDynStopMask) else l[n]? := by
  fun_induction markStop l generalizing n with
  | case1 => simp
  | case2 word => cases n <;> simp
  | case3 word word' l ih =>
    cases n with
    | zero => simp
    | succ n => simpa using ih n

variable {x : Transfer} {i : ℕ} {m : I2cMsg}

theorem wordsBefore_succ (i : ℕ) :
    x.wordsBefore (i + 1) = x.wordsBefore i ++ x.wordsOf i := by
  simp [Transfer.wordsBefore, List.range_succ]

theorem wordsOf_read (hm : x.msgs[i]? = some m) (hread : m.IsRead) :
    x.wordsOf i = [m.startWord, m.len] := by
  simp only [Transfer.wordsOf, hm, if_pos hread]

theorem wordsOf_write (hm : x.msgs[i]? = some m) (hwrite : ¬m.IsRead) :
    x.wordsOf i = m.startWord ::
      (List.range m.len.toNat).map fun pos => (x.bufs i pos).setWidth 16 := by
  simp only [Transfer.wordsOf, hm, if_neg hwrite]

theorem wordsOf_ne_nil (hi : i < x.msgs.length) : 0 < (x.wordsOf i).length := by
  simp [Transfer.wordsOf, List.getElem?_eq_getElem hi]

theorem wordsBefore_length_mono {i j : ℕ} (h : i ≤ j) :
    (x.wordsBefore i).length ≤ (x.wordsBefore j).length := by
  induction h with
  | refl => exact le_rfl
  | step _ ih =>
    rw [wordsBefore_succ, List.length_append]
    omega

/-- The words of message `i` stand behind those of the messages before it. -/
theorem wordsBefore_getElem? {k : ℕ} {word : BitVec 16} (hi : i < x.msgs.length)
    (hk : (x.wordsOf i)[k]? = some word) :
    (x.wordsBefore x.msgs.length)[(x.wordsBefore i).length + k]? = some word := by
  have hlt : k < (x.wordsOf i).length := (List.getElem?_eq_some_iff.mp hk).1
  have later : ∀ n, i < n →
      (x.wordsBefore n)[(x.wordsBefore i).length + k]? = some word := by
    intro n hn
    induction n, hn using Nat.le_induction with
    | base =>
      rw [wordsBefore_succ, List.getElem?_append_right (Nat.le_add_right _ _),
        Nat.add_sub_cancel_left, hk]
    | succ n hn ih =>
      have hbound : (x.wordsBefore i).length + k < (x.wordsBefore n).length := by
        have hmono := wordsBefore_length_mono (x := x) hn
        rw [wordsBefore_succ, List.length_append] at hmono
        omega
      rw [wordsBefore_succ, List.getElem?_append_left hbound, ih]
  exact later _ hi

/-- A word is the last of the transfer when it is the last of the last message. -/
theorem wordsBefore_length_eq {k : ℕ} (hi : i < x.msgs.length) (hk : k < (x.wordsOf i).length) :
    (x.wordsBefore i).length + k + 1 = (x.wordsBefore x.msgs.length).length ↔
      i + 1 = x.msgs.length ∧ k + 1 = (x.wordsOf i).length := by
  have hsucc : (x.wordsBefore (i + 1)).length =
      (x.wordsBefore i).length + (x.wordsOf i).length := by
    rw [wordsBefore_succ, List.length_append]
  constructor
  · intro h
    have hlast : i + 1 = x.msgs.length := by
      by_contra hne
      have hnext : 0 < (x.wordsOf (i + 1)).length := wordsOf_ne_nil (by omega)
      have hmono := wordsBefore_length_mono (x := x) (show i + 1 + 1 ≤ x.msgs.length by omega)
      rw [wordsBefore_succ, List.length_append] at hmono
      omega
    rw [← hlast] at h
    exact ⟨hlast, by omega⟩
  · intro hpost
    obtain ⟨hlast, hk'⟩ := hpost
    rw [← hlast]
    omega

/-- The word of the encoding at place `k` of message `i`. -/
theorem encoding_getElem? {k : ℕ} {word : BitVec 16} (hi : i < x.msgs.length)
    (hk : (x.wordsOf i)[k]? = some word) :
    x.encoding[(x.wordsBefore i).length + k]? =
      some (if i + 1 = x.msgs.length ∧ k + 1 = (x.wordsOf i).length then word ||| txDynStopMask
        else word) := by
  have hlt : k < (x.wordsOf i).length := (List.getElem?_eq_some_iff.mp hk).1
  rw [Transfer.encoding, markStop_getElem?, wordsBefore_getElem? hi hk, Option.map_some]
  simp only [wordsBefore_length_eq hi hlt]
  split <;> rfl

theorem encoding_length : x.encoding.length = (x.wordsBefore x.msgs.length).length :=
  markStop_length _

/-- How many words the cursor at position `pos` of message `i` stands for. -/
def Transfer.written (x : Transfer) (i : ℕ) (m : I2cMsg) (pos : ℕ) : ℕ :=
  if m.IsRead then (x.wordsBefore (i + 1)).length else (x.wordsBefore i).length + 1 + pos

/-- A message that is completely transmitted stands for all its words. -/
theorem written_len (hm : x.msgs[i]? = some m) :
    x.written i m m.len.toNat = (x.wordsBefore (i + 1)).length := by
  rw [Transfer.written]
  split
  · rfl
  · rename_i hwrite
    rw [wordsBefore_succ, List.length_append, wordsOf_write hm hwrite]
    simp only [List.length_cons, List.length_map, List.length_range]
    omega

end Encoding

end PynqPrio.Iic
