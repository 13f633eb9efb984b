import PynqPrio.GpioPins
import Mathlib.Data.Finset.Piecewise

/-!
# Batch writes

What `xgpio_set_multiple` is for: the masked pins of a channel take their new values, all at
once. It comes to calls of `xgpio_set` on these pins in any order, with one write of `DATA`.
-/
namespace PynqPrio.Gpio
open Programs Programs.Driver Programs.Prog

section Masks

variable {w n i pin addr : ℕ} {mask : BitVec w} {words : Words w}

/-- The pins below `n` whose bit of the mask is set. -/
def maskedPins (mask : BitVec w) (n : ℕ) : Finset ℕ := (Finset.range n).filter (mask.getLsbD ·)

@[simp] theorem mem_maskedPins : pin ∈ maskedPins mask n ↔ pin < n ∧ mask.getLsbD pin = true := by
  simp [maskedPins]

theorem maskedPins_zero : maskedPins mask 0 = ∅ := rfl

theorem maskedPins_succ_of_set (h : mask.getLsbD i = true) :
    maskedPins mask (i + 1) = insert i (maskedPins mask i) := by
  rw [maskedPins, Finset.range_add_one, Finset.filter_insert, if_pos h]
  rfl

theorem maskedPins_succ_of_clear (h : mask.getLsbD i = false) :
    maskedPins mask (i + 1) = maskedPins mask i := by
  rw [maskedPins, Finset.range_add_one, Finset.filter_insert, if_neg (by simp [h])]
  rfl

/-- `xgpio_set` updates the value of one pin. -/
theorem setPin_eq_update (v : BitVec 32) (hpin : pin < 32) (b : Bool) :
    (setPin v pin b.toInt).getLsbD = Function.update v.getLsbD pin b := by
  have hb : decide (b.toInt ≠ 0) = b := by cases b <;> rfl
  funext j
  rw [getLsbD_setPin v _ hpin, hb, Function.update_apply]

/-- The bits below the width are those of the first word. -/
theorem testBit_first (hi : i < w) : testBit i addr words = (words addr).getLsbD i := by
  rw [testBit, Nat.div_eq_of_lt hi, Nat.mod_eq_of_lt hi, Nat.add_zero]

theorem testAndClearBit_first (hi : i < w) : testAndClearBit i addr words =
    ((words addr).getLsbD i,
      Function.update words addr (words addr &&& ~~~(BitVec.twoPow w i))) := by
  rw [testAndClearBit, testBit_first hi, Nat.div_eq_of_lt hi, Nat.mod_eq_of_lt hi, Nat.add_zero,
    BitVec.twoPow_eq]

theorem getLsbD_clear (v : BitVec w) (hi : i < w) :
    (v &&& ~~~(BitVec.twoPow w i)).getLsbD pin = (v.getLsbD pin && decide (pin ≠ i)) := by
  rw [BitVec.getLsbD_and, BitVec.getLsbD_not, BitVec.getLsbD_twoPow]
  by_cases hpin : pin = i
  · simp [hpin, hi]
  · cases hv : v.getLsbD pin with
    | false => rfl
    | true => simp [hpin, Ne.symm hpin, BitVec.lt_of_getLsbD hv]

end Masks

section Loop

variable {w : ℕ} {δ : Type} {dev : Machine Port Port.Res δ} {c : Channel} {mask bits i : ℕ}
  {words words' : Words w} {s t : Sys δ}

/-- The loop has come to pin `i`: the masked pins below it have their new values, and their
bits of the mask are clear. -/
structure Passed (c : Channel) (mask bits : ℕ) (words : Words w) (s : Sys δ) (i : ℕ)
    (words' : Words w) (t : Sys δ) : Prop where
  values : (t.mem.chip c).gpioState.getLsbD =
    (maskedPins (words mask) i).piecewise (words bits).getLsbD (s.mem.chip c).gpioState.getLsbD
  frame : t = s.withMem (s.mem.update c (·.withState (t.mem.chip c).gpioState))
  cleared : ∀ pin, (words' mask).getLsbD pin = ((words mask).getLsbD pin && decide (i ≤ pin))
  words : ∀ addr, addr ≠ mask → words' addr = words addr

namespace Passed

theorem start : Passed c mask bits words s 0 words s := by
  constructor
  · rw [maskedPins_zero, Finset.piecewise_empty]
  · have hsame : s.mem.update c (·.withState (s.mem.chip c).gpioState) = s.mem.update c id :=
      s.mem.update_congr c rfl
    rw [hsame, GpioMem.update_id]
    rfl
  · intro pin
    simp
  · exact fun addr _ => rfl

theorem ngpio (h : Passed c mask bits words s i words' t) :
    (t.mem.chip c).ngpio = (s.mem.chip c).ngpio := by
  rw [h.frame]
  simp

/-- The bit of a pin that is still to come. -/
theorem masked_iff (h : Passed c mask bits words s i words' t) {pin : ℕ} (hpin : i ≤ pin) :
    (words' mask).getLsbD pin = (words mask).getLsbD pin := by
  rw [h.cleared, decide_eq_true hpin, Bool.and_true]

/-- The bit of a pin is cleared behind it. -/
theorem clear (h : Passed c mask bits words s i words' t) (hi : i < w) {words'' : Words w}
    (hwords : words'' = Function.update words' mask (words' mask &&& ~~~(BitVec.twoPow w i))) :
    (∀ pin, (words'' mask).getLsbD pin = ((words mask).getLsbD pin && decide (i + 1 ≤ pin))) ∧
      ∀ addr, addr ≠ mask → words'' addr = words addr := by
  subst hwords
  constructor
  · intro pin
    have hpast : (decide (i ≤ pin) && decide (pin ≠ i)) = decide (i + 1 ≤ pin) := by
      rw [← Bool.decide_and]
      exact decide_eq_decide.mpr (by omega)
    rw [Function.update_self, getLsbD_clear _ hi, h.cleared, Bool.and_assoc, hpast]
  · intro addr hne
    rw [Function.update_of_ne hne]
    exact h.words addr hne

/-- A masked pin takes its new value. -/
theorem set (h : Passed c mask bits words s i words' t) (hi : i < 32) (hw : i < w)
    (hmask : (words mask).getLsbD i = true) {words'' : Words w}
    (hwords : words'' = Function.update words' mask (words' mask &&& ~~~(BitVec.twoPow w i))) :
    Passed c mask bits words s (i + 1) words'' (t.withMem (t.mem.update c fun chip =>
      chip.withState (setPin chip.gpioState i ((words bits).getLsbD i).toInt))) := by
  obtain ⟨hcleared, hkept⟩ := h.clear hw hwords
  obtain ⟨hvalues, hframe, -, -⟩ := h
  generalize (t.mem.chip c).gpioState = v at hvalues hframe
  subst hframe
  refine ⟨?_, ?_, hcleared, hkept⟩
  · rw [maskedPins_succ_of_set hmask, Finset.piecewise_insert, ← hvalues]
    simp [setPin_eq_update _ hi]
  · simp [Config.withMem, GpioMem.update_update, XgpioInstance.withState]

/-- A pin that is not masked stays as it is. -/
theorem skip (h : Passed c mask bits words s i words' t) (hw : i < w)
    (hmask : (words mask).getLsbD i = false) {words'' : Words w}
    (hwords : words'' = Function.update words' mask (words' mask &&& ~~~(BitVec.twoPow w i))) :
    Passed c mask bits words s (i + 1) words'' t := by
  obtain ⟨hcleared, hkept⟩ := h.clear hw hwords
  refine ⟨?_, h.frame, hcleared, hkept⟩
  rw [maskedPins_succ_of_clear hmask]
  exact h.values

/-- Once the mask is empty there is nothing to do up to any later pin. -/
theorem skip_all (h : Passed c mask bits words s i words' t) (hzero : words' mask = 0) {n : ℕ}
    (hn : i ≤ n) : Passed c mask bits words s n words' t := by
  have hclear : ∀ pin, i ≤ pin → (words mask).getLsbD pin = false := by
    intro pin hpin
    rw [← h.masked_iff hpin, hzero]
    exact BitVec.getLsbD_zero
  have hpins : maskedPins (words mask) n = maskedPins (words mask) i := by
    ext pin
    simp only [mem_maskedPins]
    constructor
    · rintro ⟨-, hset⟩
      refine ⟨Nat.lt_of_not_le fun hle => ?_, hset⟩
      exact absurd ((hclear pin hle).symm.trans hset) nofun
    · rintro ⟨hlt, hset⟩
      exact ⟨by omega, hset⟩
  refine ⟨?_, h.frame, fun pin => ?_, h.words⟩
  · rw [hpins]
    exact h.values
  · rw [h.cleared]
    by_cases hpin : i ≤ pin
    · simp [hclear pin hpin]
    · have hpin' : ¬n ≤ pin := by omega
      simp [hpin, hpin']

/-- The state and the words are determined. -/
theorem unique {words'' : Words w} {u : Sys δ} (h : Passed c mask bits words s i words' t)
    (h' : Passed c mask bits words s i words'' u) : words' = words'' ∧ t = u := by
  constructor
  · funext addr
    by_cases haddr : addr = mask
    · subst haddr
      exact BitVec.eq_of_getLsbD_eq fun pin _ => (h.cleared pin).trans (h'.cleared pin).symm
    · exact (h.words addr haddr).trans (h'.words addr haddr).symm
  · have hstate : (t.mem.chip c).gpioState = (u.mem.chip c).gpioState :=
      BitVec.eq_of_getLsbD_eq fun pin _ => congrFun (h.values.trans h'.values.symm) pin
    have hframe := h.frame
    rw [hstate] at hframe
    exact hframe.trans h'.frame.symm

end Passed

/-- An iteration passes one pin; the loop ends behind the last masked one. -/
theorem meets_setMultipleBody {H : δ → δ → Prop} [Std.Refl H]
    (h : Passed c mask bits words s i words' t) (hw : 32 ≤ w) (hne : mask ≠ bits)
    (hn : (s.mem.chip c).ngpio ≤ 32) (hi : i ≤ (s.mem.chip c).ngpio) :
    Meets (withMemory dev) (onDev H) (setMultipleBody c mask bits i words') (fun r u => match r with
      | .inl x => i < x.1 ∧ x.1 ≤ (s.mem.chip c).ngpio ∧ Passed c mask bits words s x.1 x.2 u
      | .inr words'' => Passed c mask bits words s (s.mem.chip c).ngpio words'' u) t := by
  rw [setMultipleBody, meets_bind, meets_instanceOf, h.ngpio]
  refine (meets_ite _ _ _).mpr ⟨fun hlt => (meets_ite _ _ _).mpr ⟨fun hzero => ?_, fun _ => ?_⟩,
    fun hend => (meets_pure _).mpr ?_⟩
  · exact (meets_pure _).mpr (h.skip_all hzero hi)
  · rw [testAndClearBit_first (by omega), h.masked_iff le_rfl]
    refine (meets_ite _ _ _).mpr ⟨fun hset => ?_, fun hclear =>
      (meets_pure _).mpr ⟨Nat.lt_succ_self i, hlt, ?_⟩⟩
    · refine (meets_bind _ _).mpr ((meets_onDev_modify _).mpr ((meets_pure _).mpr
        ⟨Nat.lt_succ_self i, hlt, ?_⟩))
      have hbit : testBit i bits (Function.update words' mask
          (words' mask &&& ~~~(BitVec.twoPow w i))) = (words bits).getLsbD i := by
        rw [testBit_first (by omega), Function.update_of_ne (Ne.symm hne), h.words bits (Ne.symm hne)]
      rw [hbit]
      exact h.set (by omega) (by omega) hset rfl
    · exact h.skip (by omega) (by simpa using hclear) rfl
  · obtain rfl : i = (s.mem.chip c).ngpio := by omega
    exact h

/-- The only access to the device is the write of `DATA` behind the loop. -/
theorem meets_setMultiple {H : δ → δ → Prop} [Std.Refl H] (hw : 32 ≤ w) (hne : mask ≠ bits)
    (hn : (s.mem.chip c).ngpio ≤ 32)
    (hwrite : ∀ v : BitVec 32, v.getLsbD = (maskedPins (words mask) (s.mem.chip c).ngpio).piecewise
      (words bits).getLsbD (s.mem.chip c).gpioState.getLsbD → ∀ x e,
      dev s.dev (.writereg ((s.mem.chip c).offset + dataOffset) v) x e → H s.dev e) :
    Meets (withMemory dev) (onDev H) (xgpioSetMultiple c mask bits words) (fun words' t =>
      Passed c mask bits words s (s.mem.chip c).ngpio words' (t.withDev s.dev) ∧
      dev s.dev (.writereg ((s.mem.chip c).offset + dataOffset) (t.mem.chip c).gpioState) ()
        t.dev) s := by
  have hloop : Meets (withMemory dev) (onDev H)
      (Prog.iterate (fun x : ℕ × Words w => setMultipleBody c mask bits x.1 x.2) (0, words))
      (fun words' t => Passed c mask bits words s (s.mem.chip c).ngpio words' t) s := by
    refine meets_iterate (fun x t => x.1 ≤ (s.mem.chip c).ngpio ∧
      Passed c mask bits words s x.1 x.2 t) ⟨Nat.zero_le _, .start⟩ fun x t hx => ?_
    refine (meets_setMultipleBody hx.2 hw hne hn hx.1).imp ?_
    rintro (y | words') u hu
    · exact hu.2
    · exact hu
  refine (meets_bind _ _).mpr (hloop.imp ?_)
  intro words' t ht
  have hdev : t.dev = s.dev := by
    rw [ht.frame]
    rfl
  have hoffset : (t.mem.chip c).offset = (s.mem.chip c).offset := by
    rw [ht.frame]
    simp
  rw [meets_bind, meets_instanceOf, meets_bind, hoffset]
  refine (meets_onDev_port _).mpr fun x e he => ?_
  rw [hdev] at he ⊢
  refine ⟨hwrite _ ht.values x e he, (meets_pure _).mpr ⟨?_, he⟩⟩
  rw [← hdev]
  exact ht

theorem total_setMultiple (hw : 32 ≤ w) (hne : mask ≠ bits) (hn : (s.mem.chip c).ngpio ≤ 32) :
    Total (withMemory dev) (xgpioSetMultiple c mask bits words) s := by
  have hget : ∀ t : Sys δ, Total (withMemory dev) (instanceOf c) t := by
    intro t
    simp [instanceOf]
  refine (total_bind _ _).mpr ⟨?_, fun words' t _ => (total_bind _ _).mpr ⟨hget t, fun chip u _ =>
    (total_bind _ _).mpr ⟨total_port _, fun _ _ _ => total_pure _⟩⟩⟩
  refine total_iterate (fun x t => x.1 ≤ (s.mem.chip c).ngpio ∧
    Passed c mask bits words s x.1 x.2 t) (fun x _ => (s.mem.chip c).ngpio - x.1)
    ⟨Nat.zero_le _, .start⟩ (fun x t _ => ?_) ?_
  · simp only [setMultipleBody, total_bind, total_ite, total_pure, hget]
    simp [testAndClearBit]
  · intro x t y u hx h
    obtain ⟨hlt, hle, hy⟩ := (meets_setMultipleBody (H := anyAccess) hx.2 hw hne hn hx.1).2 _ _ h
    exact ⟨⟨hle, hy⟩, by omega⟩

end Loop

section Batch

variable {w : ℕ} {c : Channel} {mask bits n : ℕ} {words words₁ words₂ : Words w} {value : BitVec w}
  {s t u : Sys (GpioRegs × List Port)} {l : List (ℕ × Sys (GpioRegs × List Port))}

/-- A call of `xgpio_set` on a pin, with its bit of a word as the value. -/
def SetStep (c : Channel) (value : BitVec w) (s : Sys (GpioRegs × List Port)) (pin : ℕ)
    (t : Sys (GpioRegs × List Port)) : Prop :=
  Exec (withMemory gpioCore.logged) (xgpioSet c pin (value.getLsbD pin).toInt) s () t

structure SetTogether (c : Channel) (mask bits : ℕ) (words : Words w)
    (s : Sys (GpioRegs × List Port)) (words' : Words w) (t : Sys (GpioRegs × List Port)) :
    Prop where
  /-- The single writes in any order leave the same. -/
  single : ∀ l, Run (SetStep c (words bits)) s l → l ≠ [] →
    (∀ pin, pin ∈ l.map Prod.fst ↔ pin ∈ maskedPins (words mask) (s.mem.chip c).ngpio) →
    (finish s l).mem = t.mem ∧ (finish s l).dev.1 = t.dev.1
  empty : maskedPins (words mask) (s.mem.chip c).ngpio = ∅ →
    (t.mem.chip c).gpioState = (s.mem.chip c).gpioState
  written : t.dev.1.data c = (t.mem.chip c).gpioState
  /-- The only access to the registers. -/
  once : t.dev.2 = s.dev.2 ++ [.writereg (c.offset + dataOffset) (t.mem.chip c).gpioState]
  patterns : ∀ u v, Steps (withMemory gpioCore.logged) (xgpioSetMultiple c mask bits words) s u v →
    v.dev = s.dev ∨ v.dev = t.dev
  unmasked : ∀ pin, pin ∉ maskedPins (words mask) (s.mem.chip c).ngpio →
    (t.mem.chip c).gpioState.getLsbD pin = (s.mem.chip c).gpioState.getLsbD pin ∧
    ((s.dev.1.data c).getLsbD pin = (s.mem.chip c).gpioState.getLsbD pin →
      (t.dev.1.data c).getLsbD pin = (s.dev.1.data c).getLsbD pin)
  directions : (t.mem.chip c).gpioDir = (s.mem.chip c).gpioDir ∧ t.dev.1.tri = s.dev.1.tri
  others : ∀ c' : Channel, c' ≠ c → SameChannel c' (s.mapDev Prod.fst) (t.mapDev Prod.fst)
  words : ∀ addr, addr ≠ mask → words' addr = words addr

/-- Only the shadow register and `DATA` of the channel have changed, and they agree. -/
structure Written (c : Channel) (s t : Sys (GpioRegs × List Port)) : Prop where
  mem : t.mem = s.mem.update c (·.withState (t.mem.chip c).gpioState)
  regs : t.dev.1 = { s.dev.1 with
    data := Function.update s.dev.1.data c (t.mem.chip c).gpioState }

/-- The channel that has been written is as before but for its shadow register. -/
theorem Written.chip (h : Written c s t) :
    t.mem.chip c = (s.mem.chip c).withState (t.mem.chip c).gpioState := by
  generalize hv : (t.mem.chip c).gpioState = v
  rw [h.mem, hv, GpioMem.update_self]

theorem Written.other (h : Written c s t) {c' : Channel} (hc' : c' ≠ c) :
    SameChannel c' (s.mapDev Prod.fst) (t.mapDev Prod.fst) := by
  constructor
  · exact (congrArg (fun d => d.chip c') h.mem).trans (GpioMem.update_of_ne _ _ hc')
  · exact (congrArg (fun e => e.data c') h.regs).trans (Function.update_of_ne hc' ..)
  · exact congrArg (fun e => e.tri c') h.regs

theorem Written.data (h : Written c s t) : t.dev.1.data c = (t.mem.chip c).gpioState := by
  rw [h.regs]
  exact Function.update_self ..

theorem Written.trans (h : Written c s t) (h' : Written c t u) : Written c s u := by
  constructor
  · have hmem := h'.mem
    generalize (u.mem.chip c).gpioState = v at hmem ⊢
    rw [hmem, h.mem, GpioMem.update_update]
    rfl
  · rw [h'.regs, h.regs, Function.update_idem]

theorem Written.offset (h : Written c s t) : (t.mem.chip c).offset = (s.mem.chip c).offset := by
  rw [h.chip]
  rfl

/-- What has been written is the same if the shadow registers are. -/
theorem Written.congr (h : Written c s t) (h' : Written c s u)
    (hstate : (t.mem.chip c).gpioState = (u.mem.chip c).gpioState) :
    t.mem = u.mem ∧ t.dev.1 = u.dev.1 := by
  have hmem := h.mem
  have hregs := h.regs
  rw [hstate] at hmem hregs
  exact ⟨hmem.trans h'.mem.symm, hregs.trans h'.regs.symm⟩

theorem SetStep.valueSet {pin : ℕ} (h : SetStep c value s pin t)
    (hoffset : (s.mem.chip c).offset = c.offset) :
    t.mapDev Prod.fst = valueSet c pin (value.getLsbD pin).toInt (s.mapDev Prod.fst) := by
  have hplain := (withMemory_refines_view (D := GpioMem) (E := Event)
    gpioCore.logged_refines).exec _ h
  exact (exec_set (by exact hoffset) ()).mp hplain

/-- The step lemma of the single writes: a step updates the value of one pin. -/
theorem SetStep.update {pin : ℕ} (h : SetStep c value s pin t)
    (hoffset : (s.mem.chip c).offset = c.offset) (hpin : pin < 32) :
    (t.mem.chip c).gpioState.getLsbD =
      Function.update (s.mem.chip c).gpioState.getLsbD pin (value.getLsbD pin) ∧ Written c s t := by
  have hset := h.valueSet hoffset
  have hmem : t.mem = (Gpio.valueSet c pin (value.getLsbD pin).toInt (s.mapDev Prod.fst)).mem :=
    congrArg Config.mem hset
  have hregs : t.dev.1 = (Gpio.valueSet c pin (value.getLsbD pin).toInt (s.mapDev Prod.fst)).dev :=
    congrArg Config.dev hset
  have hstate : (t.mem.chip c).gpioState =
      setPin (s.mem.chip c).gpioState pin (value.getLsbD pin).toInt := by
    rw [hmem]
    simp [Gpio.valueSet, Config.mapDev]
  constructor
  · rw [hstate, setPin_eq_update _ hpin]
  · constructor
    · rw [hstate, hmem]
      exact s.mem.update_congr c (f := fun chip => chip.withState
        (setPin chip.gpioState pin (value.getLsbD pin).toInt)) rfl
    · rw [hstate, hregs]
      rfl

/-- The run lemma: the pins of the calls have the new values, whatever the order. -/
theorem values_finish (hrun : Run (SetStep c value) s l) (hoffset : (s.mem.chip c).offset = c.offset)
    (hpins : ∀ pin ∈ l.map Prod.fst, pin < 32) :
    ((finish s l).mem.chip c).gpioState.getLsbD = (l.map Prod.fst).toFinset.piecewise
      value.getLsbD (s.mem.chip c).gpioState.getLsbD ∧ (l ≠ [] → Written c s (finish s l)) := by
  induction hrun with
  | nil s =>
    refine ⟨?_, fun hne => absurd rfl hne⟩
    exact (Finset.piecewise_empty _ _).symm
  | @cons s t pin l first rest ih =>
    obtain ⟨hupdate, hwritten⟩ := first.update hoffset (hpins pin (by simp))
    obtain ⟨hvalues, hlater⟩ := ih (hwritten.offset.trans hoffset)
      fun j hj => hpins j (List.mem_cons_of_mem pin hj)
    constructor
    · calc ((finish s ((pin, t) :: l)).mem.chip c).gpioState.getLsbD
        _ = (l.map Prod.fst).toFinset.piecewise value.getLsbD
            (Function.update (s.mem.chip c).gpioState.getLsbD pin (value.getLsbD pin)) := by
          rw [finish, hvalues, hupdate]
        _ = Function.update ((l.map Prod.fst).toFinset.piecewise value.getLsbD
            (s.mem.chip c).gpioState.getLsbD) pin (value.getLsbD pin) := by
          rw [Finset.update_piecewise, Function.update_eq_self]
        _ = (((pin, t) :: l).map Prod.fst).toFinset.piecewise value.getLsbD
            (s.mem.chip c).gpioState.getLsbD := by
          rw [List.map_cons, List.toFinset_cons]
          exact (Finset.piecewise_insert _ _ _ pin).symm
    · intro _
      by_cases hl : l = []
      · subst hl
        exact hwritten
      · exact hwritten.trans (hlater hl)

theorem logged_writereg (addr : ℕ) (v : BitVec 32) (x : Unit) (e e' : GpioRegs × List Port) :
    gpioCore.logged e (.writereg addr v) x e' ↔
      e' = (e.1.write addr v, e.2 ++ [.writereg addr v]) := by
  constructor
  · rintro ⟨⟨_, h⟩, hlog⟩
    exact Prod.ext (Prod.mk.inj (Option.some.inj h)).2.symm hlog
  · rintro rfl
    exact ⟨⟨default, rfl⟩, rfl⟩

theorem logged_answers (e : GpioRegs × List Port) (p : Port) : ∃ x e', gpioCore.logged e p x e' := by
  have hanswer : ∃ r, e.1.answer default p = some r := by
    cases p with
    | _ => exact ⟨_, rfl⟩
  obtain ⟨r, hr⟩ := hanswer
  exact ⟨r.1, (r.2, e.2 ++ [p]), ⟨default, hr⟩, rfl⟩

/-- The device stays as it is, or gets to the state `e`. -/
def StaysOr {δ : Type} (e e₁ e₂ : δ) : Prop := e₂ = e₁ ∨ e₂ = e

instance {δ : Type} (e : δ) : Std.Refl (StaysOr e) := ⟨fun _ => .inl rfl⟩

section Determined

variable {words' : Words w} (hw : 32 ≤ w) (hne : mask ≠ bits)
  (hoffset : (s.mem.chip c).offset = c.offset) (hn : (s.mem.chip c).ngpio ≤ 32)
include hw hne hoffset hn

/-- What a run of `xgpio_set_multiple` leaves is determined. -/
theorem exec_setMultiple
    (h : Exec (withMemory gpioCore.logged) (xgpioSetMultiple c mask bits words) s words' t) :
    Passed c mask bits words s (s.mem.chip c).ngpio words' (t.withDev s.dev) ∧
      t.dev = (s.dev.1.write (c.offset + dataOffset) (t.mem.chip c).gpioState,
        s.dev.2 ++ [.writereg (c.offset + dataOffset) (t.mem.chip c).gpioState]) := by
  obtain ⟨hpassed, hdev⟩ := (meets_setMultiple (H := anyAccess) hw hne hn
    fun _ _ _ _ _ => trivial).2 _ _ h
  rw [logged_writereg, hoffset] at hdev
  exact ⟨hpassed, hdev⟩

theorem exec_setMultiple_unique
    (h₁ : Exec (withMemory gpioCore.logged) (xgpioSetMultiple c mask bits words) s words₁ t)
    (h₂ : Exec (withMemory gpioCore.logged) (xgpioSetMultiple c mask bits words) s words₂ u) :
    words₂ = words₁ ∧ u = t := by
  obtain ⟨hpassed₁, hdev₁⟩ := exec_setMultiple hw hne hoffset hn h₁
  obtain ⟨hpassed₂, hdev₂⟩ := exec_setMultiple hw hne hoffset hn h₂
  obtain ⟨hwords, hsame⟩ := hpassed₂.unique hpassed₁
  refine ⟨hwords, ?_⟩
  have hmem : u.mem = t.mem := (Config.mk.inj hsame).1
  rw [hmem, ← hdev₁] at hdev₂
  calc u = (u.withDev s.dev).withDev u.dev := rfl
    _ = (t.withDev s.dev).withDev t.dev := by rw [hsame, hdev₂]
    _ = t := rfl

/-- On the way the registers are as before, or as they will be. -/
theorem patterns_setMultiple
    (h : Exec (withMemory gpioCore.logged) (xgpioSetMultiple c mask bits words) s words' t)
    {u v : Sys (GpioRegs × List Port)}
    (hstep : Steps (withMemory gpioCore.logged) (xgpioSetMultiple c mask bits words) s u v) :
    v.dev = s.dev ∨ v.dev = t.dev := by
  obtain ⟨hpassed, hdev⟩ := exec_setMultiple hw hne hoffset hn h
  have hwrite : ∀ v : BitVec 32, v.getLsbD = (maskedPins (words mask)
      (s.mem.chip c).ngpio).piecewise (words bits).getLsbD (s.mem.chip c).gpioState.getLsbD →
      ∀ x e, gpioCore.logged s.dev (.writereg ((s.mem.chip c).offset + dataOffset) v) x e →
      StaysOr t.dev s.dev e := by
    intro value hvalue x e he
    have hstate : value = (t.mem.chip c).gpioState :=
      BitVec.eq_of_getLsbD_eq fun pin _ => congrFun (hvalue.trans hpassed.values.symm) pin
    rw [logged_writereg, hoffset, hstate, ← hdev] at he
    exact .inr he
  refine (steps_invariant (P := fun u => u.dev = s.dev ∨ u.dev = t.dev) (.inl rfl)
    (fun u v huv hu => ?_) hstep).2
  by_cases hsame : u = v
  · exact hsame ▸ hu
  · rcases (meets_setMultiple hw hne hn hwrite).1 u v huv hsame with hv | hv
    · exact hu.imp hv.trans hv.trans
    · exact .inr hv

theorem written_setMultiple
    (h : Exec (withMemory gpioCore.logged) (xgpioSetMultiple c mask bits words) s words' t) :
    Written c s t := by
  obtain ⟨hpassed, hdev⟩ := exec_setMultiple hw hne hoffset hn h
  constructor
  · exact (Config.mk.inj hpassed.frame).1
  · rw [hdev, GpioRegs.write_data]

end Determined

/-- In every state of a chip and for all words, `xgpio_set_multiple` comes to the calls of
`xgpio_set` on the masked pins in any order, with one write of `DATA`. -/
theorem set_multiple_is_sets (hw : 32 ≤ w) (c : Channel) (mask bits : ℕ) (hne : mask ≠ bits)
    (words : Words w) (s : Sys (GpioRegs × List Port))
    (hoffset : (s.mem.chip c).offset = c.offset) (hn : (s.mem.chip c).ngpio ≤ 32) :
    ∃ words' t, (∀ words'' u, Exec (withMemory gpioCore.logged)
      (xgpioSetMultiple c mask bits words) s words'' u ↔ words'' = words' ∧ u = t) ∧
      SetTogether c mask bits words s words' t := by
  have htotal : Total (withMemory gpioCore.logged) (xgpioSetMultiple c mask bits words) s :=
    total_setMultiple hw hne hn
  obtain ⟨words', t, hrun⟩ := exists_exec (withMemory_answers logged_answers) htotal
  obtain ⟨hpassed, hdev⟩ := exec_setMultiple hw hne hoffset hn hrun
  have hwritten := written_setMultiple hw hne hoffset hn hrun
  have hvalues : (t.mem.chip c).gpioState.getLsbD =
      (maskedPins (words mask) (s.mem.chip c).ngpio).piecewise (words bits).getLsbD
        (s.mem.chip c).gpioState.getLsbD := hpassed.values
  refine ⟨words', t, fun words'' u => ⟨fun h => ?_, ?_⟩, ?_⟩
  · exact exec_setMultiple_unique hw hne hoffset hn hrun h
  · rintro ⟨rfl, rfl⟩
    exact hrun
  constructor
  case single =>
    intro l hl hnil hpins
    have hset : (l.map Prod.fst).toFinset = maskedPins (words mask) (s.mem.chip c).ngpio := by
      ext pin
      rw [List.mem_toFinset, hpins]
    obtain ⟨hsingle, hsets⟩ := values_finish hl hoffset fun pin hpin => by
      have hlt := (mem_maskedPins.mp ((hpins pin).mp hpin)).1
      omega
    refine (hsets hnil).congr hwritten (BitVec.eq_of_getLsbD_eq fun pin _ => ?_)
    rw [hsingle, hvalues, hset]
  case empty =>
    intro hempty
    rw [hempty, Finset.piecewise_empty] at hvalues
    exact BitVec.eq_of_getLsbD_eq fun pin _ => congrFun hvalues pin
  case written => exact hwritten.data
  case once => exact congrArg Prod.snd hdev
  case patterns => exact fun u v huv => patterns_setMultiple hw hne hoffset hn hrun huv
  case unmasked =>
    intro pin hpin
    have hsame : (t.mem.chip c).gpioState.getLsbD pin = (s.mem.chip c).gpioState.getLsbD pin := by
      rw [hvalues]
      exact Finset.piecewise_eq_of_notMem _ _ _ hpin
    refine ⟨hsame, fun hbefore => ?_⟩
    rw [hwritten.data, hsame, hbefore]
  case directions =>
    constructor
    · rw [hwritten.chip]
      rfl
    · rw [hwritten.regs]
  case others => exact fun c' hc' => hwritten.other hc'
  case words => exact hpassed.words

/-- The single writes can be made in any order. -/
theorem exists_sets (c : Channel) (value : BitVec w) (s : Sys (GpioRegs × List Port))
    (pins : List ℕ) : ∃ l, Run (SetStep c value) s l ∧ l.map Prod.fst = pins := by
  induction pins generalizing s with
  | nil => exact ⟨[], .nil s, rfl⟩
  | cons pin pins ih =>
    have htotal : Total (withMemory gpioCore.logged)
        (xgpioSet c pin (value.getLsbD pin).toInt) s := by
      simp [xgpioSet, instanceOf, xgpioWritereg]
    obtain ⟨⟨⟩, t, ht⟩ := exists_exec (withMemory_answers logged_answers) htotal
    obtain ⟨l, hl, hpins⟩ := ih t
    exact ⟨(pin, t) :: l, .cons ht hl, by rw [List.map_cons, hpins]⟩

theorem Written.inv {dual : Bool} (h : Written c s t) (hs : PinsInv dual (s.mapDev Prod.fst)) :
    PinsInv dual (t.mapDev Prod.fst) := by
  have hsame : ∀ c', (t.mem.chip c').offset = (s.mem.chip c').offset ∧
      (t.mem.chip c').ngpio = (s.mem.chip c').ngpio := by
    intro c'
    by_cases hc' : c' = c
    · rw [hc', h.chip]
      exact ⟨rfl, rfl⟩
    · have hchip : t.mem.chip c' = s.mem.chip c' := (h.other hc').chip
      rw [hchip]
      exact ⟨rfl, rfl⟩
  constructor
  · exact fun c' hpresent => (hsame c').1.trans (hs.placed c' hpresent)
  · exact fun c' hpresent => (hsame c').2.le.trans (hs.width c' hpresent)
  · intro c' hpresent
    obtain ⟨hdata, htri⟩ := hs.coherent c' hpresent
    by_cases hc' : c' = c
    · subst hc'
      refine ⟨h.data, ?_⟩
      have hdir : (t.mem.chip c').gpioDir = (s.mem.chip c').gpioDir := by
        rw [h.chip]
        rfl
      exact (congrArg (fun e => e.tri c') h.regs).trans (htri.trans hdir.symm)
    · obtain ⟨hchip, hdata', htri'⟩ := h.other hc'
      rw [hchip, hdata', htri']
      exact ⟨hdata, htri⟩

/-- Between the calls of a run from `save_regs` on, a batch write keeps what the calls keep,
and the pins that are not masked stay as they are. -/
theorem setMultiple_inv {dual : Bool} (hw : 32 ≤ w) (hne : mask ≠ bits)
    (hs : PinsInv dual (s.mapDev Prod.fst)) (hc : c.Present dual) {words' : Words w}
    (h : Exec (withMemory gpioCore.logged) (xgpioSetMultiple c mask bits words) s words' t) :
    PinsInv dual (t.mapDev Prod.fst) ∧
      ∀ pin, pin ∉ maskedPins (words mask) (s.mem.chip c).ngpio →
        SamePin c pin (s.mapDev Prod.fst) (t.mapDev Prod.fst) := by
  have hoffset : (s.mem.chip c).offset = c.offset := hs.placed c hc
  have hn : (s.mem.chip c).ngpio ≤ 32 := hs.width c hc
  have hwritten := written_setMultiple hw hne hoffset hn h
  have hpassed := (exec_setMultiple hw hne hoffset hn h).1
  refine ⟨hwritten.inv hs, fun pin hpin => ?_⟩
  have hvalue : (t.mem.chip c).gpioState.getLsbD pin = (s.mem.chip c).gpioState.getLsbD pin :=
    (congrFun hpassed.values pin).trans (Finset.piecewise_eq_of_notMem _ _ _ hpin)
  have hdata : s.dev.1.data c = (s.mem.chip c).gpioState := (hs.coherent c hc).1
  have hdir : (t.mem.chip c).gpioDir = (s.mem.chip c).gpioDir := by
    rw [hwritten.chip]
    rfl
  have hirq : (t.mem.chip c).irqEnable = (s.mem.chip c).irqEnable := by
    rw [hwritten.chip]
    rfl
  have htri : t.dev.1.tri c = s.dev.1.tri c := by
    rw [hwritten.regs]
  constructor
  · exact congrArg₂ Pin.mk hvalue (congrArg (fun v : BitVec 32 => v.getLsbD pin) hdir)
  · exact congrArg (fun v : BitVec 32 => v.getLsbD pin) hirq
  · show (t.dev.1.data c).getLsbD pin = (s.dev.1.data c).getLsbD pin
    rw [hwritten.data, hvalue, hdata]
  · exact congrArg (fun v : BitVec 32 => v.getLsbD pin) htri

end Batch

section Runs

/-- A mask with both pins of the channel and bits above them, and the values behind it. -/
def strayWords (addr : ℕ) : BitVec 64 := if addr = 0 then 0xFF00000003 else 0xFFFFFFFFFFFFFFFE

/-- A batch write and the single writes from the last pin on. -/
theorem set_multiple_is_sets_strayBits : ∃ words' t l,
    SetTogether .first 0 1 strayWords (saved.mapDev (·, [])) words' t ∧
    Run (SetStep .first (strayWords 1)) (saved.mapDev (·, [])) l ∧ l.map Prod.fst = [1, 0] ∧
    (finish (saved.mapDev (·, [])) l).mem = t.mem ∧
    (finish (saved.mapDev (·, [])) l).dev.1 = t.dev.1 := by
  obtain ⟨words', t, -, h⟩ := set_multiple_is_sets (by decide) .first 0 1 (by decide) strayWords
    (saved.mapDev (·, [])) (by decide) (by decide)
  obtain ⟨l, hrun, hpins⟩ := exists_sets .first (strayWords 1) (saved.mapDev (·, [])) [1, 0]
  have hmasked : ∀ pin, pin ∈ l.map Prod.fst ↔ pin ∈ maskedPins (strayWords 0)
      ((saved.mapDev fun e => (e, ([] : List Port))).mem.chip .first).ngpio := by
    have hset : maskedPins (strayWords 0)
        ((saved.mapDev fun e => (e, ([] : List Port))).mem.chip .first).ngpio = {1, 0} := by
      decide
    intro pin
    rw [hpins, hset]
    simp
  have hne : l ≠ [] := by
    rintro rfl
    exact absurd hpins nofun
  exact ⟨words', t, l, h, hrun, hpins, h.single l hrun hne hmasked⟩

end Runs

end PynqPrio.Gpio
