import PynqPrio.IicPower

/-!
# The power accounts of the I2C driver

What only the driver changes of the power state goes through an outline of each of its
functions, whatever the PM core does in between. The enable count of the clock is then the
prepare count less the suspend callback that has not been undone.
-/
namespace PynqPrio.Iic
open Programs Programs.Driver Programs.Prog

section Own

@[ext] structure Own where
  prepared : ℤ
  usage : ℤ
  pmEnabled : Bool
  unset : Bool

def Power.own (s : Power) : Own :=
  ⟨s.clk.prepared, s.usage, s.pmEnabled, decide (s.status = .unset)⟩

/-- What the operations do to the driver's part. -/
def ownCore : Machine KernelOp KernelOp.Res Own
  | u, .platform _, _, v => v = u
  | u, .power .clkPrepareEnable, x, v =>
    v = if x = (0 : ℤ) then { u with prepared := u.prepared + 1 } else u
  | u, .power .clkDisableUnprepare, _, v => v = { u with prepared := u.prepared - 1 }
  | u, .power .pmRuntimeSetActive, _, v => v = { u with unset := u.unset && u.pmEnabled }
  | u, .power .pmRuntimeSetSuspended, _, v => v = { u with unset := u.unset || !u.pmEnabled }
  | u, .power .pmRuntimeEnable, _, v => v = { u with pmEnabled := true }
  | u, .power .pmRuntimeDisable, _, v => v = { u with pmEnabled := false }
  | u, .power .pmRuntimeGetSync, _, v =>
    v = { u with usage := u.usage + 1, unset := v.unset } ∧ (u.unset = false → v.unset = false)
  | u, .power .pmRuntimePutSync, _, v => v = { u with usage := u.usage - 1 }
  | u, .power .pmRuntimePutAutosuspend, _, v => v = { u with usage := u.usage - 1 }

variable {s t : Power} {k : Kernel}

theorem suspend_eq (h : s.suspend = some t) :
    (s.pmEnabled = true ∧ s.status = .active ∧ s.usage = 0) ∧
      t = { s with clk := ⟨s.clk.prepared, s.clk.enabled - 1⟩, status := .suspended } := by
  rw [Power.suspend] at h
  split at h
  · rename_i hidle
    rw [ClkCounts.call_suspend] at h
    exact ⟨hidle, (Option.some.inj h).symm⟩
  · cases h

theorem resume_eq {errno : ℕ} {r : ℤ × Power} (h : s.resume errno = some r) :
    (s.pmEnabled = true ∧ s.status ≠ .active) ∧ r = (-(errno : ℤ), if errno = 0 then
      { s with clk := ⟨s.clk.prepared, s.clk.enabled + 1⟩, status := .active } else s) := by
  rw [Power.resume] at h
  split at h
  · rename_i hidle
    rw [ClkCounts.call_resume] at h
    refine ⟨hidle, (Option.some.inj h).symm.trans ?_⟩
    cases errno with
    | zero => rfl
    | succ n => rfl
  · cases h

theorem own_suspend (h : s.suspend = some t) : t.own = s.own := by
  obtain ⟨⟨-, hactive, -⟩, rfl⟩ := suspend_eq h
  rw [Power.own, Power.own, hactive]
  rfl

/-- A resume keeps the driver's part if the status has been set. -/
theorem own_resume {errno : ℕ} {r : ℤ × Power} (h : s.resume errno = some r)
    (hset : s.status ≠ .unset) : r.2.own = s.own := by
  obtain ⟨-, rfl⟩ := resume_eq h
  change (if errno = 0 then _ else s : Power).own = s.own
  split
  · rw [Power.own, Power.own, decide_eq_false hset]
    rfl
  · rfl

/-- The ways `pm_runtime_get_sync` can go. -/
theorem getSync_cases {ret : ℤ} (h : s.answer k .pmRuntimeGetSync = some (ret, t)) :
    (t.status = .active ∧ 0 ≤ ret ∧ t.clk.prepared = s.clk.prepared ∧
      t.usage = s.usage + 1 ∧ t.pmEnabled = s.pmEnabled ∧
      t.clk.enabled = s.clk.enabled + (if s.status = .active then 0 else 1)) ∨
    (s.status ≠ .active ∧ ret < 0 ∧ t = s.used 1) := by
  rw [Power.answer] at h
  split at h
  · rename_i hactive
    obtain ⟨rfl, rfl⟩ := Prod.mk.inj (Option.some.inj h)
    left
    refine ⟨hactive, by decide, rfl, rfl, rfl, ?_⟩
    rw [if_pos hactive, Int.add_zero]
    rfl
  rename_i hactive
  split at h
  · obtain ⟨-, hresumed⟩ := resume_eq h
    obtain ⟨rfl, rfl⟩ := Prod.mk.inj hresumed
    by_cases herr : k.errno = 0
    · left
      rw [if_pos herr, herr, if_neg hactive]
      exact ⟨rfl, by decide, rfl, rfl, rfl, rfl⟩
    · right
      rw [if_neg herr]
      exact ⟨hactive, by omega, rfl⟩
  · obtain ⟨rfl, rfl⟩ := Prod.mk.inj (Option.some.inj h)
    right
    exact ⟨hactive, by omega, rfl⟩

/-- The ways `pm_runtime_put_sync` can go. -/
theorem putSync_cases (h : s.answer k .pmRuntimePutSync = some ((), t)) :
    t = s.used (-1) ∨ (s.used (-1)).suspend = some t := by
  rw [Power.answer] at h
  split at h
  · right
    obtain ⟨u, hu, hut⟩ := Option.map_eq_some_iff.mp h
    obtain ⟨-, rfl⟩ := Prod.mk.inj hut
    exact hu
  · left
    exact (Prod.mk.inj (Option.some.inj h)).2.symm

theorem own_marked_active : (s.marked .active).own =
    { s.own with unset := s.own.unset && s.own.pmEnabled } := by
  cases hpm : s.pmEnabled <;> simp [Power.marked, Power.own, hpm]

theorem own_marked_unset : (s.marked .unset).own =
    { s.own with unset := s.own.unset || !s.own.pmEnabled } := by
  cases hpm : s.pmEnabled <;> simp [Power.marked, Power.own, hpm]

theorem pmCore_refines : pmCore.Refines ownCore Power.own := by
  intro s o x t h
  obtain ⟨k, hk⟩ := h
  cases o with
  | platform o =>
    obtain ⟨-, rfl⟩ := Prod.mk.inj (Option.some.inj hk)
    rfl
  | power o =>
    cases o with
    | clkPrepareEnable =>
      obtain ⟨rfl, rfl⟩ := Prod.mk.inj (Option.some.inj hk)
      by_cases herr : k.errno = 0
      · simp [ownCore, Power.own, herr]
      · simp [ownCore, Power.own, herr]
    | clkDisableUnprepare | pmRuntimePutAutosuspend | pmRuntimeEnable | pmRuntimeDisable =>
      obtain ⟨-, rfl⟩ := Prod.mk.inj (Option.some.inj hk)
      rfl
    | pmRuntimeSetActive =>
      obtain ⟨-, rfl⟩ := Prod.mk.inj (Option.some.inj hk)
      exact own_marked_active
    | pmRuntimeSetSuspended =>
      obtain ⟨-, rfl⟩ := Prod.mk.inj (Option.some.inj hk)
      exact own_marked_unset
    | pmRuntimeGetSync =>
      obtain ⟨hactive, -, hprepared, husage, hpm, -⟩ | ⟨-, -, rfl⟩ := getSync_cases hk
      · have hset : t.own.unset = false := by simp [Power.own, hactive]
        refine ⟨?_, fun _ => hset⟩
        ext1
        · exact hprepared
        · exact husage
        · exact hpm
        · rfl
      · exact ⟨rfl, id⟩
    | pmRuntimePutSync =>
      obtain rfl | hsuspend := putSync_cases hk
      · rfl
      · exact own_suspend hsuspend

theorem marked_enabled {status : RpmStatus} :
    (s.marked status).clk.enabled = s.clk.enabled := by
  rw [Power.marked]
  split <;> rfl

theorem own_unset : s.own.unset = false ↔ s.status ≠ .unset := by
  simp [Power.own]

end Own

section Account

/-- The enable count is the prepare count since the probe, less one if the suspend callback
has run last. While runtime PM is enabled the status is one that has been set. -/
structure Accounted (prepared : ℤ) (s : Power) : Prop where
  enabled : s.clk.enabled = s.clk.prepared - prepared - if s.status = .suspended then 1 else 0
  managed : s.pmEnabled = true → s.status ≠ .unset

/-- The states in which the driver issues its operations. -/
def Issued (prepared : ℤ) : KernelOp → Own → Prop
  | .power .pmRuntimeSetActive, u => u.pmEnabled = false ∧ u.unset = true
  | .power .pmRuntimeEnable, u => u.unset = false
  | .power .clkDisableUnprepare, u => u.prepared = prepared + 1 ∧ u.unset = false
  | .power .pmRuntimePutSync, u => u.prepared = prepared + 1
  | .power .pmRuntimeSetSuspended, u => u.pmEnabled = true ∨ u.prepared = prepared
  | .power .pmRuntimeGetSync, _ => False
  | _, _ => True

variable {prepared : ℤ} {s t : Power} {o : KernelOp} {x : KernelOp.Res o}

namespace Accounted

/-- A suspended device has given up one enable. -/
theorem suspend (h : Accounted prepared s) (hs : s.suspend = some t) :
    Accounted prepared t ∧ (0 ≤ t.clk.enabled ↔ prepared < s.clk.prepared) := by
  obtain ⟨⟨-, hactive, -⟩, rfl⟩ := suspend_eq hs
  have henabled := h.enabled
  rw [hactive, if_neg (by decide)] at henabled
  constructor
  · constructor
    · change s.clk.enabled - 1 = s.clk.prepared - prepared - 1
      rw [henabled, Int.sub_zero]
    · intro _ hunset
      cases hunset
  · change 0 ≤ s.clk.enabled - 1 ↔ _
    omega

theorem resume (h : Accounted prepared s) {errno : ℕ} {r : ℤ × Power}
    (hr : s.resume errno = some r) (hs : 0 ≤ s.clk.enabled) :
    Accounted prepared r.2 ∧ 0 ≤ r.2.clk.enabled := by
  obtain ⟨⟨hpm, hactive⟩, rfl⟩ := resume_eq hr
  have hsuspended : s.status = .suspended := by
    have hset := h.managed hpm
    cases hstatus : s.status with
    | unset => exact absurd hstatus hset
    | active => exact absurd hstatus hactive
    | suspended => rfl
  have henabled := h.enabled
  rw [hsuspended, if_pos rfl] at henabled
  by_cases herr : errno = 0
  · simp only [if_pos herr]
    refine ⟨⟨?_, fun _ hunset => by cases hunset⟩, ?_⟩
    · change s.clk.enabled + 1 = s.clk.prepared - prepared - 0
      omega
    · exact Int.le_add_one hs
  · simp only [if_neg herr]
    exact ⟨h, hs⟩

theorem used (h : Accounted prepared s) (n : ℤ) : Accounted prepared (s.used n) :=
  ⟨h.enabled, h.managed⟩

theorem prepareEnable (h : Accounted prepared s) (hs : 0 ≤ s.clk.enabled) (errno : ℕ) :
    Accounted prepared
        { s with clk := if errno = 0 then ⟨s.clk.prepared + 1, s.clk.enabled + 1⟩ else s.clk } ∧
      0 ≤ (if errno = 0 then ⟨s.clk.prepared + 1, s.clk.enabled + 1⟩ else s.clk).enabled := by
  have henabled := h.enabled
  by_cases herr : errno = 0
  · simp only [if_pos herr]
    refine ⟨⟨?_, h.managed⟩, Int.le_add_one hs⟩
    change s.clk.enabled + 1 = s.clk.prepared + 1 - prepared - if s.status = .suspended then 1 else 0
    omega
  · simp only [if_neg herr]
    exact ⟨h, hs⟩

/-- The disabling is one too many for a suspended device. -/
theorem disableUnprepare (h : Accounted prepared s) (hprepared : s.clk.prepared = prepared + 1)
    (hset : s.status ≠ .unset) :
    Accounted prepared { s with clk := ⟨s.clk.prepared - 1, s.clk.enabled - 1⟩ } ∧
      (0 ≤ s.clk.enabled - 1 ↔ s.status = .active) := by
  have henabled := h.enabled
  refine ⟨⟨?_, h.managed⟩, ?_⟩
  · change s.clk.enabled - 1 = s.clk.prepared - 1 - prepared - if s.status = .suspended then 1 else 0
    omega
  · cases hstatus : s.status with
    | unset => exact absurd hstatus hset
    | active =>
      rw [hstatus, if_neg (by decide)] at henabled
      exact iff_of_true (by omega) rfl
    | suspended =>
      rw [hstatus, if_pos rfl] at henabled
      exact iff_of_false (by omega) fun hactive => by cases hactive

theorem marked_active (h : Accounted prepared s) (hpm : s.pmEnabled = false)
    (hunset : s.status = .unset) : Accounted prepared (s.marked .active) := by
  have henabled := h.enabled
  rw [hunset, if_neg (by decide)] at henabled
  rw [Power.marked, if_neg (by simp [hpm])]
  exact ⟨henabled, fun _ hset => by cases hset⟩

/-- Without a prepare the device cannot have given up an enable. -/
theorem marked_unset (h : Accounted prepared s) (hs : 0 ≤ s.clk.enabled)
    (hmark : s.pmEnabled = true ∨ s.clk.prepared = prepared) :
    Accounted prepared (s.marked .unset) := by
  rw [Power.marked]
  split
  · exact h
  · rename_i hpm
    have hprepared := hmark.resolve_left hpm
    have henabled := h.enabled
    refine ⟨?_, fun hon => absurd hon hpm⟩
    change s.clk.enabled = s.clk.prepared - prepared - 0
    split at henabled
    · omega
    · exact henabled

/-- The suspend in `pm_runtime_put_sync` finds the clock prepared. -/
theorem putSync {k : Kernel} (h : Accounted prepared s) (hs : 0 ≤ s.clk.enabled)
    (hprepared : s.clk.prepared = prepared + 1)
    (hput : s.answer k .pmRuntimePutSync = some ((), t)) :
    Accounted prepared t ∧ 0 ≤ t.clk.enabled := by
  obtain rfl | hsuspend := putSync_cases hput
  · exact ⟨h.used _, hs⟩
  · obtain ⟨hkeep, hnonneg⟩ := (h.used _).suspend hsuspend
    refine ⟨hkeep, hnonneg.mpr ?_⟩
    change prepared < s.clk.prepared
    omega

/-- An operation that is issued as it should be keeps the account, and takes the enable count
below 0 only in `clk_disable_unprepare` on a suspended device. -/
theorem issued (h : Accounted prepared s) (hs : 0 ≤ s.clk.enabled)
    (hissued : Issued prepared o s.own) (hstep : pmCore s o x t) :
    Accounted prepared t ∧
      (0 ≤ t.clk.enabled ↔ (o = .power .clkDisableUnprepare → s.status = .active)) := by
  obtain ⟨k, hk⟩ := hstep
  cases o with
  | platform o =>
    obtain ⟨-, rfl⟩ := Prod.mk.inj (Option.some.inj hk)
    exact ⟨h, iff_of_true hs fun ho => by cases ho⟩
  | power o =>
    cases o with
    | clkPrepareEnable =>
      obtain ⟨-, rfl⟩ := Prod.mk.inj (Option.some.inj hk)
      obtain ⟨hkeep, hnonneg⟩ := h.prepareEnable hs k.errno
      exact ⟨hkeep, iff_of_true hnonneg fun ho => by cases ho⟩
    | clkDisableUnprepare =>
      obtain ⟨-, rfl⟩ := Prod.mk.inj (Option.some.inj hk)
      obtain ⟨hprepared, hset⟩ := hissued
      obtain ⟨hkeep, hiff⟩ := h.disableUnprepare hprepared (own_unset.mp hset)
      exact ⟨hkeep, hiff.trans ⟨fun hactive _ => hactive, fun hactive => hactive rfl⟩⟩
    | pmRuntimeSetActive =>
      obtain ⟨-, rfl⟩ := Prod.mk.inj (Option.some.inj hk)
      obtain ⟨hpm, hunset⟩ := hissued
      have hkeep := h.marked_active hpm (of_decide_eq_true hunset)
      exact ⟨hkeep, iff_of_true (hs.trans_eq marked_enabled.symm) fun ho => by cases ho⟩
    | pmRuntimeSetSuspended =>
      obtain ⟨-, rfl⟩ := Prod.mk.inj (Option.some.inj hk)
      have hkeep := h.marked_unset hs hissued
      exact ⟨hkeep, iff_of_true (hs.trans_eq marked_enabled.symm) fun ho => by cases ho⟩
    | pmRuntimeEnable =>
      obtain ⟨-, rfl⟩ := Prod.mk.inj (Option.some.inj hk)
      refine ⟨⟨h.enabled, fun _ => ?_⟩, iff_of_true hs fun ho => by cases ho⟩
      exact own_unset.mp hissued
    | pmRuntimeDisable =>
      obtain ⟨-, rfl⟩ := Prod.mk.inj (Option.some.inj hk)
      exact ⟨⟨h.enabled, fun hon => by cases hon⟩, iff_of_true hs fun ho => by cases ho⟩
    | pmRuntimeGetSync => exact hissued.elim
    | pmRuntimePutSync =>
      obtain ⟨hkeep, hnonneg⟩ := h.putSync hs hissued hk
      exact ⟨hkeep, iff_of_true hnonneg fun ho => by cases ho⟩
    | pmRuntimePutAutosuspend =>
      obtain ⟨-, rfl⟩ := Prod.mk.inj (Option.some.inj hk)
      exact ⟨h.used _, iff_of_true hs fun ho => by cases ho⟩

end Accounted

end Account

section Outlines

structure Bound (prepared : ℤ) (u : Own) : Prop where
  prepared : u.prepared = prepared + 1
  pmEnabled : u.pmEnabled = true
  set : u.unset = false

/-- How the probe ends. -/
def Probed (prepared found : ℤ) (r : ℤ × XiicI2c) (u : Own) : Prop :=
  if r.1 = 0 then Bound prepared u ∧ u.usage = found else u.prepared = prepared

/-- The operations of a transfer once it has its reference. -/
def InUse : KernelOp → Own → Prop
  | .platform _, _ => True
  | .power .pmRuntimePutAutosuspend, _ => True
  | .power _, _ => False

def KernelOp.IsPlatform (o : KernelOp) : Prop := ∃ p, o = .platform p

theorem uses_platform (o : PlatformOp) : UsesPorts KernelOp.IsPlatform (platform o) :=
  .port ⟨o, rfl⟩

theorem uses_onRegisters {α : Type} (q : Xiic α) : UsesPorts KernelOp.IsPlatform (onRegisters q) :=
  .lower (fun p => uses_platform (.reg p)) q

variable {α : Type} {ok : KernelOp → Own → Prop} {d : XiicI2c} {u : Own} {prepared found : ℤ}

theorem outline_platform {Q : α × XiicI2c → Own → Prop} {q : XiicPm α}
    (hq : UsesPorts KernelOp.IsPlatform q) (hok : ∀ o, ok (.platform o) u) (hQ : ∀ r, Q r u) :
    Outline ownCore ok (messages q d) Q u := by
  have hkeep : ∀ o v, KernelOp.IsPlatform o → v = u →
      ok o v ∧ ∀ x t, ownCore v o x t → t = u := by
    rintro _ _ ⟨o, rfl⟩ rfl
    exact ⟨hok o, fun _ _ => id⟩
  refine ((hq.messages d).outline hkeep rfl).imp fun r v hv => ?_
  rw [hv]
  exact hQ r

theorem outline_power {o : PowerOp} {Q : o.Res × XiicI2c → Own → Prop} (hok : ok (.power o) u)
    (hQ : ∀ x v, ownCore u (.power o) x v → Q (x, d) v) :
    Outline ownCore ok (messages (power o) d) Q u :=
  (outline_messages_port _).mpr ⟨hok, hQ⟩

theorem outline_errClkDis {ret : ℤ} (hret : ret ≠ 0) (h : Bound prepared u) :
    Outline ownCore (Issued prepared) (messages (errClkDis ret) d) (Probed prepared found) u := by
  simp only [errClkDis, outline_messages_bind, outline_messages_pure]
  -- the status stays set, since runtime PM is still enabled
  refine outline_power (.inl h.pmEnabled) fun _ v hv => ?_
  subst hv
  refine outline_power trivial fun _ v hv => ?_
  subst hv
  have hset : (u.unset || !u.pmEnabled) = false := by rw [h.set, h.pmEnabled]; rfl
  refine outline_power ⟨h.prepared, hset⟩ fun _ v hv => ?_
  subst hv
  rw [Probed, if_neg hret]
  change u.prepared - 1 = prepared
  rw [h.prepared, Int.add_sub_cancel]

theorem outline_probePowered (h : Bound prepared u) (husage : u.usage = found) :
    Outline ownCore (Issued prepared) (messages probePowered d) (Probed prepared found) u := by
  simp only [probePowered, outline_messages_bind, outline_messages_ite, outline_messages_pure]
  refine outline_platform (uses_platform _) (fun _ => trivial) fun r => ⟨fun hneg => ?_, fun _ => ?_⟩
  · exact outline_errClkDis (Int.ne_of_lt hneg) h
  refine outline_platform (uses_onRegisters _) (fun _ => trivial) fun r => ?_
  refine outline_platform (uses_onRegisters _) (fun _ => trivial) fun r => ?_
  refine outline_platform (uses_platform _) (fun _ => trivial) fun r => ⟨fun hfail => ?_, fun _ => ?_⟩
  · refine outline_platform (uses_onRegisters _) (fun _ => trivial) fun _ => ?_
    exact outline_errClkDis hfail h
  · rw [Probed, if_pos rfl]
    exact ⟨h, husage⟩

theorem outline_probe (hprepared : u.prepared = prepared) (hpm : u.pmEnabled = false)
    (hunset : u.unset = true) (husage : u.usage = found) :
    Outline ownCore (Issued prepared) (messages xiicI2cProbe d) (Probed prepared found) u := by
  simp only [xiicI2cProbe, outline_messages_bind, outline_messages_ite, outline_messages_pure]
  have hfailed : ∀ {ret : ℤ} {d : XiicI2c}, ret ≠ 0 → Probed prepared found (ret, d) u := by
    intro ret d hret
    rw [Probed, if_neg hret]
    exact hprepared
  refine outline_platform (uses_platform _) (fun _ => trivial) fun r => ⟨fun _ => ?_, fun _ => ?_⟩
  · exact hfailed (by decide)
  refine outline_platform (uses_platform _) (fun _ => trivial) fun r => ⟨fun hneg => ?_, fun _ => ?_⟩
  · exact hfailed (Int.ne_of_lt hneg)
  refine outline_platform (uses_platform _) (fun _ => trivial) fun r => ⟨fun hneg => ?_, fun _ => ?_⟩
  · exact hfailed (Int.ne_of_lt hneg)
  refine outline_platform (uses_platform _) (fun _ => trivial) fun r => ⟨fun hneg => ?_, fun _ => ?_⟩
  · exact hfailed (Int.ne_of_lt hneg)
  refine outline_power trivial fun ret v hv => ?_
  have hv : v = if ret = (0 : ℤ) then { u with prepared := u.prepared + 1 } else u := hv
  refine ⟨fun hfail => ?_, fun hok => ?_⟩
  · rw [hv, if_neg hfail]
    exact hfailed hfail
  rw [hv, if_pos (not_not.mp hok)]
  refine outline_platform (uses_platform _) (fun _ => trivial) fun _ => ?_
  refine outline_platform (uses_platform _) (fun _ => trivial) fun _ => ?_
  refine outline_power ⟨hpm, hunset⟩ fun _ v hv => ?_
  subst hv
  have hset : (u.unset && u.pmEnabled) = false := by rw [hpm, Bool.and_false]
  refine outline_power hset fun _ v hv => ?_
  subst hv
  refine outline_probePowered ⟨?_, rfl, hset⟩ husage
  change u.prepared + 1 = prepared + 1
  rw [hprepared]

theorem uses_waitEventTimeout (num : ℕ) :
    UsesPorts KernelOp.IsPlatform (waitEventTimeout num) := by
  refine .iterate fun _ => .bind .get fun d => ?_
  cases xferResult d num with
  | some err => exact .pure _
  | none =>
    exact .bind (uses_platform _) fun _ => .ite (.bind (uses_onRegisters _) fun _ => .pure _) (.pure _)

theorem uses_xferBody (msgs : List I2cMsg) (bufs : ℕ → ℕ → BitVec 8) :
    UsesPorts KernelOp.IsPlatform (xferBody msgs bufs) := by
  refine .bind (uses_onRegisters _) fun busy => .ite (.pure _) (.bind (uses_onRegisters _) fun _ => ?_)
  refine .bind (uses_waitEventTimeout _) fun result => ?_
  cases result with
  | some err => exact .pure _
  | none => exact .bind (uses_onRegisters _) fun _ => .pure _

/-- The function has got to its `pm_runtime_get_sync`, which it returns from if it fails. -/
def Getting (ok : KernelOp → Own → Prop) (Q : ℤ × XiicI2c → Own → Prop) (p : PmCall)
    (u : Own) : Prop :=
  ∃ (k : ℤ → PmCall) (d : XiicI2c), p = .call (.power .pmRuntimeGetSync) k ∧
    (∀ err, err < 0 → k err = .ret (err, d)) ∧
    ∀ err, 0 ≤ err → Outline ownCore ok (k err) Q { u with usage := u.usage + 1 }

theorem getting {Q : ℤ × XiicI2c → Own → Prop} {q : XiicPm ℤ}
    (hq : Outline ownCore ok (messages q d) Q { u with usage := u.usage + 1 }) :
    Getting ok Q (messages (do
      let err ← pmRuntimeGetSync
      if err < 0 then return err
      q) d) u := by
  refine ⟨fun err => messages (if err < 0 then return err else q) d, d, rfl, ?_, ?_⟩
  · intro err hneg
    change messages (if err < 0 then return err else q) d = _
    rw [if_pos hneg]
    rfl
  · intro err hpos
    change Outline ownCore ok (messages (if err < 0 then return err else q) d) Q _
    rw [if_neg (Int.not_lt.mpr hpos)]
    exact hq

theorem getting_xfer (msgs : List I2cMsg) (bufs : ℕ → ℕ → BitVec 8) (husage : u.usage = found) :
    Getting InUse (fun _ v => v.usage = found) (messages (xiicXfer msgs bufs) d) u := by
  apply getting
  simp only [outline_messages_bind, outline_messages_pure]
  refine outline_platform (uses_xferBody msgs bufs) (fun _ => trivial) fun r => ?_
  refine outline_platform (uses_platform _) (fun _ => trivial) fun _ => ?_
  refine outline_power trivial fun _ v hv => ?_
  subst hv
  change u.usage + 1 - 1 = found
  rw [husage, Int.add_sub_cancel]

theorem outline_process (husage : u.usage = found) :
    Outline ownCore InUse (messages IicCall.process.prog d) (fun _ v => v.usage = found) u := by
  rw [IicCall.prog, outline_messages_bind]
  exact outline_platform (uses_onRegisters _) (fun _ => trivial) fun _ => husage

theorem getting_remove (h : Bound prepared u) :
    ∃ k, messages xiicI2cRemove d = .call (.platform .i2cDelAdapter) k ∧
      Getting (Issued prepared) (fun _ v => v.prepared = prepared) (k ()) u := by
  refine ⟨_, rfl, getting ?_⟩
  simp only [outline_messages_bind, outline_messages_pure]
  refine outline_platform (uses_onRegisters _) (fun _ => trivial) fun _ => ?_
  refine outline_power h.prepared fun _ v hv => ?_
  subst hv
  refine outline_power ⟨h.prepared, h.set⟩ fun _ v hv => ?_
  subst hv
  have hprepared : u.prepared - 1 = prepared := by rw [h.prepared, Int.add_sub_cancel]
  refine outline_power trivial fun _ v hv => ?_
  subst hv
  refine outline_power (.inr hprepared) fun _ v hv => ?_
  subst hv
  exact outline_platform (uses_platform _) (fun _ => trivial) fun _ => hprepared

end Outlines

section Balance

/-- How far a function of the driver is, with the driver's part of the power state. -/
inductive CallPhase (prepared found : ℤ) : Stage → PmCall → Own → Prop where
  | bound {r : ℤ × XiicI2c} {u : Own} (h : Bound prepared u) (husage : u.usage = found) :
      CallPhase prepared found .bound (.ret r) u
  | gone {r : ℤ × XiicI2c} {u : Own} (h : u.prepared = prepared) :
      CallPhase prepared found .gone (.ret r) u
  | probing {p : PmCall} {u : Own}
      (h : Outline ownCore (Issued prepared) p (Probed prepared found) u) :
      CallPhase prepared found .probing p u
  | getting {p : PmCall} {u : Own} (h : Bound prepared u) (husage : u.usage = found)
      (hp : Getting InUse (fun _ v => v.usage = found) p u) :
      CallPhase prepared found .calling p u
  | inUse {p : PmCall} {u : Own} (h : Bound prepared u)
      (hp : Outline ownCore InUse p (fun _ v => v.usage = found) u) :
      CallPhase prepared found .calling p u
  | deleting {k : Unit → PmCall} {u : Own} (h : Bound prepared u)
      (hk : Getting (Issued prepared) (fun _ v => v.prepared = prepared) (k ()) u) :
      CallPhase prepared found .removing (.call (.platform .i2cDelAdapter) k) u
  | waking {p : PmCall} {u : Own} (h : Bound prepared u)
      (hp : Getting (Issued prepared) (fun _ v => v.prepared = prepared) p u) :
      CallPhase prepared found .removing p u
  | removing {p : PmCall} {u : Own}
      (hp : Outline ownCore (Issued prepared) p (fun _ v => v.prepared = prepared) u) :
      CallPhase prepared found .removing p u

structure PowerInv (s : PmState) : Prop where
  phase : CallPhase s.before.prepared s.found s.stage s.prog s.power.own
  account : Accounted s.before.prepared s.power
  nonneg : 0 ≤ s.power.clk.enabled
  before : s.before.enabled = 0

variable {prepared found : ℤ} {stage : Stage} {p q : PmCall} {u : Own} {s t : PmState}

namespace CallPhase

theorem held (h : CallPhase prepared found stage p u) (hstage : stage = .bound ∨ stage = .calling) :
    Bound prepared u := by
  cases h with
  | bound h _ | getting h _ _ | inUse h _ => exact h
  | gone _ | probing _ | deleting _ _ | waking _ _ | removing _ => simp at hstage

theorem usage_found (h : CallPhase prepared found .bound p u) : u.usage = found := by
  cases h with
  | bound _ husage => exact husage

theorem released (h : CallPhase prepared found .gone p u) : u.prepared = prepared := by
  cases h with
  | gone hprepared => exact hprepared

theorem after_probing (h : Outline ownCore (Issued prepared) q (Probed prepared found) u) :
    CallPhase prepared found (Stage.probing.next q) q u := by
  cases q with
  | ret r =>
    rw [Stage.next]
    have hprobed : Probed prepared found r u := h
    rw [Probed] at hprobed
    split
    · rename_i hok
      rw [if_pos hok] at hprobed
      exact .bound hprobed.1 hprobed.2
    · rename_i hfail
      rw [if_neg hfail] at hprobed
      exact .gone hprobed
  | call o k => exact .probing h
  | loop body b k => exact .probing h

theorem after_inUse (h : Bound prepared u)
    (hq : Outline ownCore InUse q (fun _ v => v.usage = found) u) :
    CallPhase prepared found (Stage.calling.next q) q u := by
  cases q with
  | ret r => exact .bound h hq
  | call o k => exact .inUse h hq
  | loop body b k => exact .inUse h hq

theorem after_removing
    (h : Outline ownCore (Issued prepared) q (fun _ v => v.prepared = prepared) u) :
    CallPhase prepared found (Stage.removing.next q) q u := by
  cases q with
  | ret r => exact .gone h
  | call o k => exact .removing h
  | loop body b k => exact .removing h

end CallPhase

theorem PowerInv.right (h : PowerInv s) : PowerRight s := by
  have henabled := h.account.enabled
  have hnonneg := h.nonneg
  constructor
  · intro hstage
    have hphase := h.phase
    rw [hstage] at hphase
    exact hphase.usage_found
  · intro hstage
    have hheld := h.phase.held hstage
    have hprepared : s.power.clk.prepared = s.before.prepared + 1 := hheld.prepared
    cases hstatus : s.power.status with
    | unset => exact absurd hstatus (own_unset.mp hheld.set)
    | active =>
      rw [hstatus, if_neg (by decide)] at henabled
      exact iff_of_true (by omega) rfl
    | suspended =>
      rw [hstatus, if_pos rfl] at henabled
      exact iff_of_false (by omega) fun hactive => by cases hactive
  · exact hnonneg
  · intro hstage
    have hphase := h.phase
    rw [hstage] at hphase
    have hprepared : s.power.clk.prepared = s.before.prepared := hphase.released
    have hbefore := h.before
    have hzero : s.power.clk.enabled = s.before.enabled := by
      split at henabled
      · omega
      · omega
    exact ClkCounts.ext hprepared hzero

/-- What a call into the kernel leads to. -/
inductive Message (prepared found : ℤ) (stage : Stage) (p : PmCall) (s : Power) (q : PmCall)
    (t : Power) : Prop
  | issued (hphase : CallPhase prepared found (stage.next q) q t.own)
      (haccount : Accounted prepared t) (hnext : p.nextOp ≠ some (.power .pmRuntimeGetSync))
      (hnonneg : 0 ≤ t.clk.enabled ↔
        (p.nextOp = some (.power .clkDisableUnprepare) → s.status = .active))
  | resumed (hphase : CallPhase prepared found (stage.next q) q t.own)
      (haccount : Accounted prepared t) (hnext : p.nextOp = some (.power .pmRuntimeGetSync))
      (hactive : t.status = .active) (hnonneg : 0 ≤ t.clk.enabled)
  | failed (hnext : p.nextOp = some (.power .pmRuntimeGetSync)) (hactive : t.status ≠ .active)
      (hwrong : (stage.next q = .bound ∧ t.usage ≠ found) ∨
        (stage.next q = .gone ∧ t.clk.prepared ≠ prepared))

section Message

variable {power after : Power}

theorem issued_of_inUse {o : KernelOp} (h : InUse o u) : Issued prepared o u := by
  cases o with
  | platform o => trivial
  | power o =>
    cases o with
    | pmRuntimePutAutosuspend => trivial
    | clkPrepareEnable | clkDisableUnprepare | pmRuntimeSetActive | pmRuntimeSetSuspended
    | pmRuntimeEnable | pmRuntimeDisable | pmRuntimeGetSync | pmRuntimePutSync => exact h.elim

theorem Bound.inUse {o : KernelOp} {x : KernelOp.Res o} {v : Own} (h : Bound prepared u)
    (ho : InUse o u) (hstep : ownCore u o x v) : Bound prepared v := by
  cases o with
  | platform o =>
    obtain rfl : v = u := hstep
    exact h
  | power o =>
    cases o with
    | pmRuntimePutAutosuspend =>
      obtain rfl : v = { u with usage := u.usage - 1 } := hstep
      exact ⟨h.prepared, h.pmEnabled, h.set⟩
    | clkPrepareEnable | clkDisableUnprepare | pmRuntimeSetActive | pmRuntimeSetSuspended
    | pmRuntimeEnable | pmRuntimeDisable | pmRuntimeGetSync | pmRuntimePutSync => exact ho.elim

theorem Bound.step {Q : ℤ × XiicI2c → Own → Prop} {v : Own} (h : Bound prepared u)
    (hp : Outline ownCore InUse p Q u) (hstep : SmallStep ownCore p u q v) : Bound prepared v := by
  cases p with
  | ret r => exact hstep.elim
  | call o k =>
    obtain ⟨x, hx, -⟩ := hstep
    exact h.inUse hp.1 hx
  | loop body b k =>
    obtain ⟨-, rfl⟩ := hstep
    exact h

theorem Accounted.step (h : Accounted prepared power) (hs : 0 ≤ power.clk.enabled)
    (hissued : ∀ o, p.nextOp = some o → Issued prepared o power.own)
    (hstep : SmallStep pmCore p power q after) :
    Accounted prepared after ∧ p.nextOp ≠ some (.power .pmRuntimeGetSync) ∧
      (0 ≤ after.clk.enabled ↔
        (p.nextOp = some (.power .clkDisableUnprepare) → power.status = .active)) := by
  cases p with
  | ret r => exact hstep.elim
  | call o k =>
    obtain ⟨x, hx, -⟩ := hstep
    obtain ⟨haccount, hnonneg⟩ := h.issued hs (hissued o rfl) hx
    refine ⟨haccount, hissued _, hnonneg.trans (imp_congr_left ?_)⟩
    exact ⟨congrArg some, Option.some.inj⟩
  | loop body b k =>
    obtain ⟨-, rfl⟩ := hstep
    exact ⟨h, nofun, iff_of_true hs nofun⟩

/-- A call of `pm_runtime_get_sync` resumes the device, or the function returns. -/
theorem getting_step {ok : KernelOp → Own → Prop} {Q : ℤ × XiicI2c → Own → Prop}
    (hp : Getting ok Q p power.own) (h : Accounted prepared power)
    (hb : Bound prepared power.own) (hstep : SmallStep pmCore p power q after) :
    p.nextOp = some (.power .pmRuntimeGetSync) ∧
      ((after.status = .active ∧ Outline ownCore ok q Q after.own ∧ Bound prepared after.own ∧
        Accounted prepared after ∧ 0 ≤ after.clk.enabled) ∨
      (after.status ≠ .active ∧ (∃ r, q = .ret r) ∧ after = power.used 1)) := by
  obtain ⟨k, d, rfl, hfail, hok⟩ := hp
  obtain ⟨ret, hx, rfl⟩ := hstep
  obtain ⟨choice, hanswer⟩ := id hx
  refine ⟨rfl, ?_⟩
  obtain ⟨hactive, hret, hprepared, husage, hpm, henabled⟩ | ⟨hactive, hret, rfl⟩ :=
    getSync_cases hanswer
  · left
    have hown : after.own = { power.own with usage := power.own.usage + 1 } := by
      have hset : after.own.unset = false := own_unset.mpr (by rw [hactive]; decide)
      ext1
      · exact hprepared
      · exact husage
      · exact hpm
      · exact hset.trans hb.set.symm
    have hbound : Bound prepared after.own := by
      rw [hown]
      exact ⟨hb.prepared, hb.pmEnabled, hb.set⟩
    have hone : power.clk.prepared = prepared + 1 := hb.prepared
    -- the resume callback undoes the suspend callback
    have hcount : after.clk.enabled = 1 := by
      have hbefore := h.enabled
      cases hstatus : power.status with
      | unset => exact absurd hstatus (own_unset.mp hb.set)
      | active =>
        rw [hstatus, if_neg (by decide)] at hbefore
        rw [henabled, hbefore, hstatus, if_pos rfl]
        omega
      | suspended =>
        rw [hstatus, if_pos rfl] at hbefore
        rw [henabled, hbefore, hstatus, if_neg (by decide)]
        omega
    refine ⟨hactive, ?_, hbound, ⟨?_, fun _ hunset => ?_⟩, ?_⟩
    · rw [hown]
      exact hok ret hret
    · rw [hcount, hactive, hprepared, hone, if_neg (by decide)]
      omega
    · rw [hactive] at hunset
      cases hunset
    · rw [hcount]
      decide
  · right
    exact ⟨hactive, ⟨_, hfail ret hret⟩, rfl⟩

theorem CallPhase.message (hphase : CallPhase prepared found stage p power.own)
    (h : Accounted prepared power) (hs : 0 ≤ power.clk.enabled)
    (hstep : SmallStep pmCore p power q after) :
    Message prepared found stage p power q after := by
  have hown := smallStep_refines pmCore_refines hstep
  cases hphase with
  | bound _ _ | gone _ => exact hstep.elim
  | probing hp =>
    obtain ⟨haccount, hnext, hnonneg⟩ := h.step hs (fun o => hp.next) hstep
    exact .issued (.after_probing (hp.step hown)) haccount hnext hnonneg
  | inUse hb hp =>
    obtain ⟨haccount, hnext, hnonneg⟩ := h.step hs (fun o ho => issued_of_inUse (hp.next ho)) hstep
    exact .issued (.after_inUse (hb.step hp hown) (hp.step hown)) haccount hnext hnonneg
  | removing hp =>
    obtain ⟨haccount, hnext, hnonneg⟩ := h.step hs (fun o => hp.next) hstep
    exact .issued (.after_removing (hp.step hown)) haccount hnext hnonneg
  | getting hb husage hp =>
    obtain ⟨hnext, ⟨hactive, hq, hbound, haccount, hnonneg⟩ | ⟨hactive, ⟨r, rfl⟩, rfl⟩⟩ :=
      getting_step hp h hb hstep
    · exact .resumed (.after_inUse hbound hq) haccount hnext hactive hnonneg
    · refine .failed hnext hactive (.inl ⟨rfl, ?_⟩)
      have husage : power.usage = found := husage
      change power.usage + 1 ≠ found
      omega
  | @deleting k _ hb hk =>
    obtain ⟨haccount, hnext, hnonneg⟩ := h.step hs
      (fun o ho => by cases ho; trivial) hstep
    obtain ⟨x, ⟨choice, hx⟩, rfl⟩ := hstep
    obtain ⟨-, rfl⟩ := Prod.mk.inj (Option.some.inj hx)
    have hstage : Stage.removing.next (k ()) = .removing := by
      obtain ⟨k', d, heq, -⟩ := hk
      rw [heq]
      rfl
    refine .issued ?_ haccount hnext hnonneg
    rw [hstage]
    exact .waking hb hk
  | waking hb hp =>
    obtain ⟨hnext, ⟨hactive, hq, hbound, haccount, hnonneg⟩ | ⟨hactive, ⟨r, rfl⟩, rfl⟩⟩ :=
      getting_step hp h hb hstep
    · exact .resumed (.after_removing hq) haccount hnext hactive hnonneg
    · refine .failed hnext hactive (.inr ⟨rfl, ?_⟩)
      have hprepared : power.clk.prepared = prepared + 1 := hb.prepared
      change power.clk.prepared ≠ prepared
      omega

end Message

theorem right_iff (hphase : CallPhase t.before.prepared t.found t.stage t.prog t.power.own)
    (haccount : Accounted t.before.prepared t.power) (hbefore : t.before.enabled = 0) :
    (PowerRight t ↔ 0 ≤ t.power.clk.enabled) ∧ (PowerRight t → PowerInv t) := by
  have hinv : 0 ≤ t.power.clk.enabled → PowerInv t := fun hs => ⟨hphase, haccount, hs, hbefore⟩
  exact ⟨⟨fun h => h.nonneg, fun hs => (hinv hs).right⟩, fun h => hinv h.nonneg⟩

theorem powerInv_call {f : IicCall} (hs : PowerInv s) (h : PmStep s (.call f) t) : PowerInv t := by
  obtain ⟨hstage, r, hprog, rfl⟩ := h
  have hheld := hs.phase.held (.inl hstage)
  refine ⟨?_, hs.account, hs.nonneg, hs.before⟩
  cases f with
  | xfer msgs bufs => exact .getting hheld rfl (getting_xfer msgs bufs rfl)
  | process => exact .inUse hheld (outline_process rfl)
  | remove =>
    obtain ⟨k, hk, hget⟩ := getting_remove (d := r.2) hheld
    change CallPhase _ _ .removing (messages xiicI2cRemove r.2) _
    rw [hk]
    exact .deleting hheld hget

theorem pmStep_right {label : PmLabel} (hs : PowerInv s) (h : PmStep s label t) :
    (PowerRight t ↔ StaysPowered s label t) ∧ (PowerRight t → PowerInv t) := by
  cases label with
  | call f =>
    have ht := powerInv_call hs h
    exact ⟨iff_of_true ht.right trivial, fun _ => ht⟩
  | message =>
    obtain ⟨q, u, hstep, rfl⟩ := h
    cases hs.phase.message hs.account hs.nonneg hstep with
    | issued hphase haccount hnext hnonneg =>
      obtain ⟨hiff, hinv⟩ := right_iff (t := { s with power := u, prog := q, stage := s.stage.next q })
        hphase haccount hs.before
      refine ⟨hiff.trans (hnonneg.trans ?_), hinv⟩
      exact ⟨fun hactive => ⟨fun hget => absurd hget hnext, hactive⟩, fun hkept => hkept.2⟩
    | resumed hphase haccount hnext hactive hnonneg =>
      obtain ⟨hiff, hinv⟩ := right_iff (t := { s with power := u, prog := q, stage := s.stage.next q })
        hphase haccount hs.before
      refine ⟨iff_of_true (hiff.mpr hnonneg) ⟨fun _ => hactive, fun hdisable => ?_⟩, hinv⟩
      cases hnext.symm.trans hdisable
    | failed hnext hactive hwrong =>
      have hright : ¬PowerRight { s with power := u, prog := q, stage := s.stage.next q } := by
        intro hright
        obtain ⟨hbound, husage⟩ | ⟨hgone, hprepared⟩ := hwrong
        · exact husage (hright.usage hbound)
        · exact hprepared (congrArg ClkCounts.prepared (hright.gone hgone))
      exact ⟨iff_of_false hright fun hkept => hactive (hkept.1 hnext), fun h => absurd h hright⟩
  | suspend =>
    obtain ⟨u, hu, rfl⟩ := h
    obtain ⟨haccount, hnonneg⟩ := hs.account.suspend hu
    have hphase := hs.phase
    rw [← own_suspend hu] at hphase
    obtain ⟨hiff, hinv⟩ := right_iff (t := { s with power := u }) hphase haccount hs.before
    exact ⟨hiff.trans hnonneg, hinv⟩
  | resume errno =>
    obtain ⟨r, hr, rfl⟩ := h
    obtain ⟨haccount, hnonneg⟩ := hs.account.resume hr hs.nonneg
    obtain ⟨⟨hpm, -⟩, -⟩ := resume_eq hr
    have hphase := hs.phase
    rw [← own_resume hr (hs.account.managed hpm)] at hphase
    have ht : PowerInv { s with power := r.2 } := ⟨hphase, haccount, hnonneg, hs.before⟩
    exact ⟨iff_of_true ht.right trivial, fun _ => ht⟩

theorem PmStart.inv (h : PmStart s) : PowerInv s := by
  obtain ⟨d, hprog⟩ := h.prog
  constructor
  · rw [h.stage, hprog]
    refine .probing (outline_probe (congrArg ClkCounts.prepared h.before) h.pmEnabled ?_ h.found)
    exact decide_eq_true h.status
  · constructor
    · rw [h.before, h.enabled, h.status, if_neg (by decide)]
      omega
    · intro hpm
      exact absurd (h.pmEnabled.symm.trans hpm) Bool.false_ne_true
  · rw [h.before, h.enabled]
  · exact h.enabled

/-- The counts are right in all states of a run exactly if the device stays powered as the
driver assumes at every step. -/
theorem power_right_iff (s : PmState) (h : PmStart s) (l : List (PmLabel × PmState))
    (hrun : Run PmStep s l) :
    (PowerRight s ∧ Everywhere (fun _ _ t => PowerRight t) s l) ↔ Everywhere StaysPowered s l := by
  have hstep : ∀ s label t, PowerInv s → PmStep s label t →
      (PowerRight t ↔ StaysPowered s label t) ∧ (PowerRight t → PowerInv t) :=
    fun _ _ _ hs hstep => pmStep_right hs hstep
  rw [← hrun.everywhere_iff hstep h.inv]
  exact and_iff_right h.inv.right

end Balance

section Runs

def PmState.after (choose : KernelOp → Kernel) (s : PmState) : PmLabel → PmState
  | .call f =>
    match s.prog with
    | .ret r => { s with
        prog := messages f.prog r.2, stage := f.stage, found := s.power.usage }
    | _ => s
  | .message =>
    match s.prog with
    | .call o k =>
      match s.power.kernelAnswer (choose o) o with
      | some (x, u) => { s with power := u, prog := k x, stage := s.stage.next (k x) }
      | none => s
    | .loop body b k =>
      let q := (body b).bind (unroll body k)
      { s with prog := q, stage := s.stage.next q }
    | .ret _ => s
  | .suspend => (s.power.suspend.map fun u => { s with power := u }).getD s
  | .resume errno => ((s.power.resume errno).map fun r => { s with power := r.2 }).getD s

def PmState.can (choose : KernelOp → Kernel) (s : PmState) : PmLabel → Bool
  | .call _ => decide (s.stage = .bound) && s.prog.isRet
  | .message =>
    match s.prog with
    | .call o _ => (s.power.kernelAnswer (choose o) o).isSome
    | .loop .. => true
    | .ret _ => false
  | .suspend => s.power.suspend.isSome
  | .resume errno => (s.power.resume errno).isSome

theorem step_after {choose : KernelOp → Kernel} {s : PmState} {label : PmLabel}
    (h : s.can choose label = true) : PmStep s label (s.after choose label) := by
  cases label with
  | call f =>
    obtain ⟨hstage, hret⟩ := (Bool.and_eq_true _ _).mp h
    rw [PmState.after]
    generalize hp : s.prog = p at hret
    cases p with
    | ret r => exact ⟨of_decide_eq_true hstage, r, hp, rfl⟩
    | call o k => cases hret
    | loop body b k => cases hret
  | message =>
    rw [PmState.can] at h
    rw [PmState.after]
    generalize hp : s.prog = p at h
    cases p with
    | ret r => cases h
    | call o k =>
      obtain ⟨r, hr⟩ := Option.isSome_iff_exists.mp h
      simp only [hr]
      refine ⟨k r.1, r.2, ?_, rfl⟩
      rw [hp]
      exact ⟨r.1, ⟨choose o, hr⟩, rfl⟩
    | loop body b k =>
      refine ⟨_, s.power, ?_, rfl⟩
      rw [hp]
      exact ⟨rfl, rfl⟩
  | suspend =>
    obtain ⟨u, hu⟩ := Option.isSome_iff_exists.mp h
    rw [PmState.after, hu]
    exact ⟨u, hu, rfl⟩
  | resume errno =>
    obtain ⟨r, hr⟩ := Option.isSome_iff_exists.mp h
    rw [PmState.after, hr]
    exact ⟨r, hr, rfl⟩

/-- Everything succeeds, the bus is busy and the FIFOs are empty. -/
def willing (suspends : Bool) : KernelOp → Kernel
  | .power .pmRuntimePutSync => ⟨0, 0, suspends, 0xC4⟩
  | _ => ⟨0, 0, true, 0xC4⟩

/-- The probe of a device whose clock is not in use. -/
def probing : PmState :=
  ⟨⟨⟨0, 0⟩, 0, false, .unset⟩, messages xiicI2cProbe probed, .probing, ⟨0, 0⟩, 0⟩

theorem pmStart_probing : PmStart probing := ⟨⟨probed, rfl⟩, rfl, rfl, rfl, rfl, rfl, rfl⟩

/-- Whether the device stays powered in the step. -/
def PmState.keeps (choose : KernelOp → Kernel) (s : PmState) : PmLabel → Bool
  | .message =>
    match s.prog.nextOp with
    | some (.power .pmRuntimeGetSync) => decide ((s.after choose .message).power.status = .active)
    | some (.power .clkDisableUnprepare) => decide (s.power.status = .active)
    | _ => true
  | .suspend => decide (s.before.prepared < s.power.clk.prepared)
  | .call _ | .resume _ => true

theorem staysPowered_of_keeps {choose : KernelOp → Kernel} {s : PmState} {label : PmLabel}
    (h : s.keeps choose label = true) : StaysPowered s label (s.after choose label) := by
  cases label with
  | call f => trivial
  | resume errno => trivial
  | suspend =>
    have hheld : s.before.prepared < s.power.clk.prepared := of_decide_eq_true h
    exact hheld
  | message =>
    rw [PmState.keeps] at h
    constructor
    · intro hnext
      rw [hnext] at h
      exact of_decide_eq_true h
    · intro hnext
      rw [hnext] at h
      exact of_decide_eq_true h

/-- A transfer that finds the bus busy, a suspend, and a removal, after which `suspends` tells
whether the device is suspended at once. -/
def lifeTime : List PmLabel :=
  List.replicate 24 .message ++ .call (.xfer [] fun _ _ => 0) :: List.replicate 11 .message ++
    .suspend :: .call .remove :: List.replicate 10 .message

def removed : PmState := finish probing (stepsOf (PmState.after (willing false)) probing lifeTime)

theorem power_right_removed : removed.stage = .gone ∧ PowerRight removed := by
  have hrun : Run PmStep probing (stepsOf (PmState.after (willing false)) probing lifeTime) :=
    run_stepsOf (fun _ _ => step_after) rfl
  have hkept : Everywhere StaysPowered probing
      (stepsOf (PmState.after (willing false)) probing lifeTime) :=
    everywhere_stepsOf (fun _ _ => staysPowered_of_keeps) rfl
  obtain ⟨hstart, hright⟩ := (power_right_iff probing pmStart_probing _ hrun).mpr hkept
  exact ⟨rfl, hright.finish hstart⟩

/-- The state after a removal in which `pm_runtime_put_sync` suspends the device. -/
def overDisabled : PmState :=
  finish probing (stepsOf (PmState.after (willing true)) probing lifeTime)

/-- The clock is disabled twice. -/
theorem clock_disabled_twice : ¬∀ s, PmStart s → ∀ l, Run PmStep s l →
    PowerRight s ∧ Everywhere (fun _ _ t => PowerRight t) s l := by
  intro h
  have hrun : Run PmStep probing (stepsOf (PmState.after (willing true)) probing lifeTime) :=
    run_stepsOf (fun _ _ => step_after) rfl
  obtain ⟨hstart, hright⟩ := h probing pmStart_probing _ hrun
  have hnonneg : 0 ≤ overDisabled.power.clk.enabled := (hright.finish hstart).nonneg
  exact absurd hnonneg (by decide)

end Runs

end PynqPrio.Iic
