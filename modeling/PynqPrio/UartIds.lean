import PynqPrio.UartClock

/-!
# The identifiers of the UARTs

`ulite_get_id` takes an identifier from `port-number`, the platform device, an alias or
`bitmap`. Only the search in `bitmap` sets the bit of what it returns; the bits of aliases
are set for all devices, and the failing probe and `ulite_remove` clear the bit of any
identifier.
-/
namespace PynqPrio.Uart
open Programs Programs.Driver Programs.Prog

section Frame

variable {u v w : Sys} {ret x : ℤ}

/-- The bits that a trace clears. -/
def clearedBits (l : List Event) : List ℤ :=
  l.filterMap fun
    | .clearBit nr => some nr
    | _ => none

def Event.KeepsBits (e : Event) : Prop := clearedBits [e] = []

def idView (d : UartMem) : IdMaps × Option ℤ := (d.ids, d.id)

structure KeptIds (u v : Sys) : Prop where
  ids : v.mem.ids = u.mem.ids
  id : v.mem.id = u.mem.id
  cleared : clearedBits v.trace = clearedBits u.trace

theorem KeptIds.trans (h : KeptIds u v) (h' : KeptIds v w) : KeptIds u w :=
  ⟨h'.ids.trans h.ids, h'.id.trans h.id, h'.cleared.trans h.cleared⟩

theorem keptIds_of_leaves {α : Type} {p : Ulite α} {a : α}
    (hp : Leaves idView Event.KeepsBits p) (h : Exec (withMemory uartCore) p u a v) :
    KeptIds u v := by
  obtain ⟨hmem, l, htrace, hl⟩ := hp.exec h
  obtain ⟨hids, hid⟩ := Prod.mk.inj hmem
  refine ⟨hids, hid, ?_⟩
  have hnone : clearedBits l = [] := by
    apply List.filterMap_eq_nil_iff.mpr
    intro e he
    have hkeeps : clearedBits [e] = [] := hl e he
    exact List.filterMap_eq_nil_iff.mp hkeeps e (List.mem_singleton.mpr rfl)
  rw [htrace, clearedBits, List.filterMap_append, ← clearedBits, ← clearedBits, hnone,
    List.append_nil]

def IdMaps.cleared (ids : IdMaps) (nr : ℤ) : IdMaps :=
  { ids with bitmap := Function.update ids.bitmap nr.toNat false }

@[simp] theorem IdMaps.cleared_bitmap (ids : IdMaps) (nr : ℤ) (n : ℕ) :
    (ids.cleared nr).bitmap n = true ↔ n ≠ nr.toNat ∧ ids.bitmap n = true := by
  simp only [IdMaps.cleared, Function.update_apply]
  split <;> simp_all

structure ClearedId (u v : Sys) : Prop where
  ids : v.mem.ids = u.mem.ids.cleared (u.mem.id.getD 0)
  id : v.mem.id = u.mem.id
  cleared : clearedBits v.trace = clearedBits u.trace ++ [u.mem.id.getD 0]

theorem KeptIds.trans_cleared (h : KeptIds u v) (h' : ClearedId v w) : ClearedId u w := by
  constructor
  · rw [h'.ids, h.ids, h.id]
  · rw [h'.id, h.id]
  · rw [h'.cleared, h.cleared, h.id]

theorem ClearedId.trans_kept (h : ClearedId u v) (h' : KeptIds v w) : ClearedId u w :=
  ⟨h'.ids.trans h.ids, h'.id.trans h.id, h'.cleared.trans h.cleared⟩

theorem clearBit_cleared {y : Unit}
    (h : Exec (withMemory uartCore) (clearBit (u.mem.id.getD 0)) u y v) : ClearedId u v := by
  simp only [clearBit, withIds, exec_bind_iff, exec_modify, exec_note] at h
  obtain ⟨_, _, rfl, rfl⟩ := h
  constructor
  · rfl
  · rfl
  · exact List.filterMap_append

end Frame

section Ends

variable {u v w : Sys} {ret x : ℤ} {console : Bool}

theorem leaves_unregisterDriver : Leaves idView Event.KeepsBits uartUnregisterDriver :=
  .bind .get fun _ => .bind (.note rfl) fun _ => .onlyIf (.modify fun _ => rfl)

theorem leaves_registerDriver : Leaves idView Event.KeepsBits uartRegisterDriver :=
  .bind (.port _) fun _ => .bind (.onlyIf (.modify fun _ => rfl)) fun _ => .pure _

theorem leaves_clkUnprepare : Leaves idView Event.KeepsBits clkUnprepare :=
  .bind .get fun _ => .onlyIf (.modify fun _ => rfl)

theorem leaves_clkDisableUnprepare : Leaves idView Event.KeepsBits clkDisableUnprepare :=
  .bind (.bind .get fun _ => .onlyIf (.modify fun _ => rfl)) fun _ => leaves_clkUnprepare

theorem leaves_clkPrepareEnable : Leaves idView Event.KeepsBits clkPrepareEnable :=
  .bind .get fun _ => .ite (.pure _) <| .bind (.port _) fun _ =>
    .bind (.onlyIf (.modify fun _ => rfl)) fun _ => .pure _

theorem leaves_pmRuntimeTeardown : Leaves idView Event.KeepsBits pmRuntimeTeardown :=
  .modify fun _ => rfl

theorem leaves_assign : Leaves idView Event.KeepsBits (uliteAssign console) := by
  have hconsole : Leaves idView Event.KeepsBits (do
      let d ← get
      let enabled ← consoleEnabled
      onlyIf (d.consolePort = .thisPort ∧ enabled = false)
        (modify fun d => { d with consolePort := .null })
      return 0 : Ulite ℤ) :=
    .bind .get fun _ => .bind (.port _) fun _ => .bind (.onlyIf (.modify fun _ => rfl)) fun _ =>
      .pure _
  exact .bind (.port _) fun _ => .ite (.pure _) <| .bind (.modify fun _ => rfl) fun _ =>
    .bind .get fun _ => .bind (.onlyIf (.modify fun _ => rfl)) fun _ => .bind (.port _) fun _ =>
      .ite (.bind (.modify fun _ => rfl) fun _ => .pure _) (.ite hconsole (.pure _))

theorem leaves_release : Leaves idView Event.KeepsBits uliteRelease :=
  .bind .get fun _ => .ite (.bind (.port _) fun _ => .bind (.modify fun _ => rfl) fun _ => .pure _)
    (.pure _)

/-- A probe with an identifier succeeds, or clears its bit. -/
def ProbeEnds (u : Sys) (ret : ℤ) (v : Sys) : Prop :=
  (ret = 0 ∧ KeptIds u v) ∨ (ret ≠ 0 ∧ ClearedId u v)

theorem KeptIds.ends (h : KeptIds u v) (h' : ProbeEnds v ret w) : ProbeEnds u ret w :=
  h'.imp (And.imp_right h.trans) (And.imp_right h.trans_cleared)

theorem errOutId_ends (hret : ret ≠ 0) (h : Exec (withMemory uartCore) (errOutId ret) u x v) :
    ProbeEnds u x v := by
  rw [errOutId, exec_get_bind] at h
  simp only [exec_bind_iff, exec_pure] at h
  obtain ⟨_, _, hclear, rfl, rfl⟩ := h
  exact .inr ⟨hret, clearBit_cleared hclear⟩

theorem errOutUnregisterDriver_ends (hret : ret ≠ 0)
    (h : Exec (withMemory uartCore) (errOutUnregisterDriver ret) u x v) : ProbeEnds u x v := by
  obtain ⟨_, _, hdriver, h⟩ := (exec_bind_iff _ _ _).mp h
  exact (keptIds_of_leaves leaves_unregisterDriver hdriver).ends (errOutId_ends hret h)

theorem errOutClkDisable_ends (hret : ret ≠ 0)
    (h : Exec (withMemory uartCore) (errOutClkDisable ret) u x v) : ProbeEnds u x v := by
  obtain ⟨_, _, hclk, h⟩ := (exec_bind_iff _ _ _).mp h
  obtain ⟨_, _, hpm, h⟩ := (exec_bind_iff _ _ _).mp h
  have hkeep := (keptIds_of_leaves leaves_clkDisableUnprepare hclk).trans
    (keptIds_of_leaves leaves_pmRuntimeTeardown hpm)
  exact hkeep.ends (errOutUnregisterDriver_ends hret h)

theorem probeClocked_ends (h : Exec (withMemory uartCore) (probeClocked console) u ret v) :
    ProbeEnds u ret v := by
  simp only [probeClocked, exec_bind_iff, exec_ite, exec_pure] at h
  obtain ⟨r, w, hclk, ⟨hfail, herr⟩ | ⟨-, _, x, hsetup, _, y, hdriver, r', z, hassign, h⟩⟩ := h
  · exact (keptIds_of_leaves leaves_clkPrepareEnable hclk).ends
      (errOutUnregisterDriver_ends hfail herr)
  have hsetup' : Leaves idView Event.KeepsBits pmRuntimeSetup := .modify fun _ => rfl
  have hdriver' : Leaves idView Event.KeepsBits
      (modify (fun d => { d with uliteUartDriver := true }) : Ulite Unit) := .modify fun _ => rfl
  have hkeep := (((keptIds_of_leaves leaves_clkPrepareEnable hclk).trans
    (keptIds_of_leaves hsetup' hsetup)).trans (keptIds_of_leaves hdriver' hdriver)).trans
    (keptIds_of_leaves leaves_assign hassign)
  obtain ⟨hneg, herr⟩ | ⟨-, rfl, rfl⟩ := h
  · exact hkeep.ends (errOutClkDisable_ends (Int.ne_of_lt hneg) herr)
  · exact .inl ⟨rfl, hkeep⟩

theorem keptIds_port {p : Port} {y : Port.Res p}
    (h : Exec (withMemory uartCore) (port (R := Port.Res) p) u y v) : KeptIds u v :=
  keptIds_of_leaves (.port p) h

theorem keptIds_clk {c : Bool} {y : Unit}
    (h : Exec (withMemory uartCore) (modify (fun d => { d with clk := c }) : Ulite Unit) u y v) :
    KeptIds u v := by
  have hleaves : Leaves idView Event.KeepsBits
      (modify (fun d => { d with clk := c }) : Ulite Unit) := .modify fun _ => rfl
  exact keptIds_of_leaves hleaves h

theorem probeRegistered_ends (h : Exec (withMemory uartCore) (probeRegistered console) u ret v) :
    ProbeEnds u ret v := by
  simp only [probeRegistered, exec_bind_iff, exec_ite] at h
  obtain ⟨_, w, hres, ⟨-, herr⟩ | ⟨-, irq, x, hirq, ⟨-, herr⟩ | ⟨-, clk, y, hclk, h⟩⟩⟩ := h
  · exact (keptIds_port hres).ends (errOutUnregisterDriver_ends (by decide) herr)
  · exact ((keptIds_port hres).trans (keptIds_port hirq)).ends
      (errOutUnregisterDriver_ends (by decide) herr)
  have hkeep := ((keptIds_port hres).trans (keptIds_port hirq)).trans (keptIds_port hclk)
  cases clk with
  | ok _ =>
    obtain ⟨_, z, hset, h⟩ := (exec_bind_iff _ _ _).mp h
    exact (hkeep.trans (keptIds_clk hset)).ends (probeClocked_ends h)
  | error e =>
    simp only [exec_bind_iff, exec_ite] at h
    obtain ⟨-, herr⟩ | ⟨-, _, z, hset, h⟩ := h
    · have hneg := clkGet_error hclk
      exact hkeep.ends (errOutUnregisterDriver_ends (Int.ne_of_lt hneg) herr)
    · exact (hkeep.trans (keptIds_clk hset)).ends (probeClocked_ends h)

theorem probeNamed_ends (h : Exec (withMemory uartCore) (probeNamed console) u ret v) :
    ProbeEnds u ret v := by
  simp only [probeNamed, exec_bind_iff, exec_ite] at h
  obtain ⟨_, w, hname, ⟨-, herr⟩ | ⟨-, _, x, hconsole, ⟨-, herr⟩ | ⟨-, r, y, hregister, h⟩⟩⟩ := h
  · exact (keptIds_port hname).ends (errOutId_ends (by decide) herr)
  all_goals
    have hconsole' : Leaves idView Event.KeepsBits (consoleAlloc console) :=
      .ite (.port _) (.pure _)
    have hkeep := (keptIds_port hname).trans (keptIds_of_leaves hconsole' hconsole)
  · exact hkeep.ends (errOutId_ends (by decide) herr)
  have hkeep' := hkeep.trans (keptIds_of_leaves leaves_registerDriver hregister)
  obtain ⟨hneg, herr⟩ | ⟨-, h⟩ := h
  · exact hkeep'.ends (errOutId_ends (Int.ne_of_lt hneg) herr)
  · exact hkeep'.ends (probeRegistered_ends h)

end Ends

section GetId

variable {u v : Sys} {id : ℤ} {aliases : AliasList} {pdev : PlatformDevice}

/-- The bitmaps once the aliases are known and marked. -/
def IdMaps.listed (aliases : AliasList) (ids : IdMaps) : IdMaps where
  aliasBitmap := if ids.aliasBitmapInitialized = true then ids.aliasBitmap else aliases.bits
  aliasBitmapInitialized := true
  bitmap := fun i => ids.bitmap i || (decide (i < maxUartInstances) &&
    (if ids.aliasBitmapInitialized = true then ids.aliasBitmap else aliases.bits) i)

def IdMaps.marked (ids : IdMaps) (nr : ℕ) : IdMaps :=
  { ids with bitmap := Function.update ids.bitmap nr true }

@[simp] theorem IdMaps.marked_bitmap (ids : IdMaps) (nr n : ℕ) :
    (ids.marked nr).bitmap n = true ↔ n = nr ∨ ids.bitmap n = true := by
  simp only [IdMaps.marked, Function.update_apply]
  split <;> simp_all

/-- The identifier that a device asks for, by its properties or its alias. -/
def PlatformDevice.wantedId (pdev : PlatformDevice) : ℤ :=
  if pdev.requestedId < 0 then ofAliasGetId pdev else pdev.requestedId

/-- What `ulite_get_id` answers and makes of the bitmaps. -/
inductive GotId (aliases : AliasList) (pdev : PlatformDevice) (ids : IdMaps) : ℤ → IdMaps → Prop
  | unlisted (hinit : ids.aliasBitmapInitialized = false) (hstatus : aliases.status ≠ 0) :
      GotId aliases pdev ids aliases.status { ids with aliasBitmap := aliases.bits }
  | wanted (hlist : ids.aliasBitmapInitialized = true ∨ aliases.status = 0)
      (hid : 0 ≤ pdev.wantedId) : GotId aliases pdev ids pdev.wantedId (ids.listed aliases)
  | full (hlist : ids.aliasBitmapInitialized = true ∨ aliases.status = 0) :
      GotId aliases pdev ids (-einval) (ids.listed aliases)
  | free (hlist : ids.aliasBitmapInitialized = true ∨ aliases.status = 0)
      (hid : pdev.wantedId < 0) (n : ℕ) (hn : n < maxUartInstances)
      (hfree : (ids.listed aliases).bitmap n = false) :
      GotId aliases pdev ids n ((ids.listed aliases).marked n)

theorem findNextZeroBit_eq (bitmap : ℕ → Bool) (size start : ℕ) :
    findNextZeroBit bitmap size start = size ∨
      (findNextZeroBit bitmap size start < size ∧
        bitmap (findNextZeroBit bitmap size start) = false) := by
  rw [findNextZeroBit]
  cases hfind : (List.range size).find? fun i => decide (start ≤ i) && !bitmap i with
  | none => exact .inl rfl
  | some n =>
    have hclear := List.find?_some hfind
    have hmem := List.mem_range.mp (List.mem_of_find?_eq_some hfind)
    simp only [Bool.and_eq_true, Bool.not_eq_true'] at hclear
    exact .inr ⟨hmem, hclear.2⟩

/-- The bit that was found is clear, so the search ends with its first attempt. -/
theorem searchFreeId_of_exec (h : Exec (withMemory uartCore) searchFreeId u id v) :
    (id = -einval ∧ v = u) ∨ ∃ n < maxUartInstances, id = n ∧ u.mem.ids.bitmap n = false ∧
      v = u.withMem { u.mem with ids := u.mem.ids.marked n } := by
  have hbody : ∀ (n : ℕ) (u v : Sys) (r : ℕ ⊕ ℤ), Exec (withMemory uartCore) (do
      let d ← get
      let id := findNextZeroBit d.ids.bitmap maxUartInstances n
      if id = maxUartInstances then return .inr (-einval)
      else do
        let taken ← testAndSetBit id
        return if taken = true then .inl (id + 1) else .inr (id : ℤ) : Ulite (ℕ ⊕ ℤ)) u r v →
      (r = .inr (-einval) ∧ v = u) ∨ ∃ n < maxUartInstances, r = .inr (n : ℤ) ∧
        u.mem.ids.bitmap n = false ∧
        v = u.withMem { u.mem with ids := u.mem.ids.marked n } := by
    intro n u v r h
    rw [exec_get_bind] at h
    simp only [testAndSetBit, withIds, exec_ite, exec_bind_iff, exec_pure, exec_get,
      exec_modify] at h
    obtain ⟨-, rfl, rfl⟩ | ⟨hsome, _, _, ⟨_, w, ⟨rfl, rfl⟩, _, _, rfl, rfl, rfl⟩, rfl, rfl⟩ := h
    · exact .inl ⟨rfl, rfl⟩
    obtain hnone | ⟨hlt, hclear⟩ := findNextZeroBit_eq w.mem.ids.bitmap maxUartInstances n
    · exact absurd hnone hsome
    · exact .inr ⟨_, hlt, by simp [hclear], hclear, rfl⟩
  obtain ⟨n, w, hreach, c, x, hlast, rfl, rfl⟩ := h
  have hfirst : (n, w) = (0, u) := by
    cases hreach.cases_head with
    | inl heq => exact heq.symm
    | inr hstep =>
      obtain ⟨_, hstep, -⟩ := hstep
      obtain ⟨hr, -⟩ | ⟨_, -, hr, -⟩ := hbody _ _ _ _ hstep
      · cases hr
      · cases hr
  obtain ⟨rfl, rfl⟩ := Prod.mk.inj hfirst
  obtain ⟨hr, rfl⟩ | ⟨n, hn, hr, hclear, rfl⟩ := hbody _ _ _ _ hlast
  · exact .inl ⟨Sum.inr.inj hr, rfl⟩
  · exact .inr ⟨n, hn, Sum.inr.inj hr, hclear, rfl⟩

/-- The bitmaps once the aliases are known. -/
def IdMaps.read (aliases : AliasList) (ids : IdMaps) : IdMaps where
  aliasBitmap := if ids.aliasBitmapInitialized = true then ids.aliasBitmap else aliases.bits
  aliasBitmapInitialized := true
  bitmap := ids.bitmap

theorem initAliasBitmap_of_exec {ret : ℤ}
    (h : Exec (withMemory uartCore) (initAliasBitmap aliases) u ret v) :
    (u.mem.ids.aliasBitmapInitialized = false ∧ aliases.status ≠ 0 ∧ ret = aliases.status ∧
      v = u.withMem { u.mem with ids := { u.mem.ids with aliasBitmap := aliases.bits } }) ∨
    ((u.mem.ids.aliasBitmapInitialized = true ∨ aliases.status = 0) ∧ ret = 0 ∧
      v = u.withMem { u.mem with ids := u.mem.ids.read aliases }) := by
  rw [initAliasBitmap, exec_get_bind] at h
  simp only [withIds, exec_ite, exec_bind_iff, exec_pure, exec_modify] at h
  obtain ⟨hinit, rfl, rfl⟩ | ⟨hinit, _, _, rfl, ⟨hstatus, rfl, rfl⟩ | ⟨hstatus, _, _, rfl, rfl, rfl⟩⟩ := h
  · refine .inr ⟨.inl hinit, rfl, ?_⟩
    have hread : v.mem.ids.read aliases = v.mem.ids := by
      rw [IdMaps.read, if_pos hinit, ← hinit]
    rw [hread]
    rfl
  · exact .inl ⟨Bool.eq_false_iff.mpr hinit, hstatus, rfl, rfl⟩
  · refine .inr ⟨.inr (not_not.mp hstatus), rfl, ?_⟩
    simp [Config.withMem, IdMaps.read, hinit]

theorem getId_of_exec (h : Exec (withMemory uartCore) (uliteGetId aliases pdev) u id v) :
    GotId aliases pdev u.mem.ids id v.mem.ids ∧ v.mem.id = u.mem.id ∧ v.trace = u.trace := by
  simp only [uliteGetId, withIds, exec_bind_iff, exec_ite, exec_pure, exec_modify] at h
  obtain ⟨ret, w, halias, h⟩ := h
  obtain ⟨hinit, hstatus, rfl, rfl⟩ | ⟨hlist, rfl, rfl⟩ := initAliasBitmap_of_exec halias
  · obtain ⟨-, rfl, rfl⟩ | ⟨hzero, -⟩ := h
    · exact ⟨.unlisted hinit hstatus, rfl, rfl⟩
    · exact absurd hstatus hzero
  obtain ⟨hzero, -⟩ | ⟨-, _, _, rfl, h⟩ := h
  · exact absurd rfl hzero
  obtain ⟨hneg, h⟩ | ⟨hneg, rfl, rfl⟩ := h
  · obtain ⟨rfl, rfl⟩ | ⟨n, hn, rfl, hfree, rfl⟩ := searchFreeId_of_exec h
    · exact ⟨.full hlist, rfl, rfl⟩
    · exact ⟨.free hlist hneg n hn hfree, rfl, rfl⟩
  · exact ⟨.wanted hlist (Int.not_lt.mp hneg), rfl, rfl⟩

/-- What a probe does: it stops before `ulite_get_id`, or for what that answers, or ends with
an identifier. -/
theorem probe_ids {console : Bool} {ret : ℤ}
    (h : Exec (withMemory uartCore) (uliteProbe console aliases pdev) u ret v) :
    (ret ≠ 0 ∧ KeptIds u v) ∨ ∃ id ids, GotId aliases pdev u.mem.ids id ids ∧
      v.mem.id = some id ∧
      ((id < 0 ∧ ret ≠ 0 ∧ v.mem.ids = ids ∧ clearedBits v.trace = clearedBits u.trace) ∨
        (0 ≤ id ∧ ret = 0 ∧ v.mem.ids = ids ∧ clearedBits v.trace = clearedBits u.trace) ∨
        (0 ≤ id ∧ ret ≠ 0 ∧ v.mem.ids = ids.cleared id ∧
          clearedBits v.trace = clearedBits u.trace ++ [id])) := by
  simp only [uliteProbe, exec_bind_iff, exec_ite, exec_pure, exec_modify] at h
  obtain ⟨_, w, hdata, ⟨-, rfl, rfl⟩ | ⟨-, _, x, hdriver, ⟨-, rfl, rfl⟩ | ⟨-, id, y, hget, h⟩⟩⟩ := h
  · exact .inl ⟨by decide, keptIds_port hdata⟩
  · exact .inl ⟨by decide, (keptIds_port hdata).trans (keptIds_port hdriver)⟩
  obtain ⟨_, z, rfl, h⟩ := h
  have hkeep := (keptIds_port hdata).trans (keptIds_port hdriver)
  obtain ⟨hgot, -, htrace⟩ := getId_of_exec hget
  rw [hkeep.ids] at hgot
  have hcleared : clearedBits y.trace = clearedBits u.trace := by rw [htrace, hkeep.cleared]
  refine .inr ⟨id, _, hgot, ?_⟩
  obtain ⟨hneg, rfl, rfl⟩ | ⟨hneg, h⟩ := h
  · exact ⟨rfl, .inl ⟨hneg, Int.ne_of_lt hneg, rfl, hcleared⟩⟩
  have hneg := Int.not_lt.mp hneg
  obtain ⟨hret, hkept⟩ | ⟨hret, hclear⟩ := probeNamed_ends h
  · exact ⟨hkept.id, .inr (.inl ⟨hneg, hret, hkept.ids, hkept.cleared.trans hcleared⟩)⟩
  · refine ⟨hclear.id, .inr (.inr ⟨hneg, hret, hclear.ids, ?_⟩)⟩
    rw [hclear.cleared]
    exact congrArg (· ++ [id]) hcleared

theorem remove_ids {console : Bool} {ret : ℤ} (hid : u.mem.id = some id)
    (h : Exec (withMemory uartCore) (uliteRemove console) u ret v) :
    v.mem.ids = u.mem.ids.cleared id ∧ clearedBits v.trace = clearedBits u.trace ++ [id] := by
  simp only [uliteRemove, exec_bind_iff, exec_get] at h
  obtain ⟨_, w, hclk, r, _, hrelease, _, x, ⟨rfl, rfl⟩, _, y, hclear, _, z, hconsole, h⟩ := h
  obtain ⟨_, a, hdriver, _, b, hpm, hret⟩ := h
  obtain ⟨-, rfl⟩ := (exec_pure _ _).mp hret
  have hconsole' : Leaves idView Event.KeepsBits (onlyIf
      (console = true ∧ x.mem.consolePort = .thisPort)
      (modify fun d => { d with consolePort := .null }) : Ulite Unit) :=
    .onlyIf (.modify fun _ => rfl)
  have hbefore := (keptIds_of_leaves leaves_clkUnprepare hclk).trans
    (keptIds_of_leaves leaves_release hrelease)
  have hafter := ((keptIds_of_leaves hconsole' hconsole).trans
    (keptIds_of_leaves leaves_unregisterDriver hdriver)).trans
    (keptIds_of_leaves leaves_pmRuntimeTeardown hpm)
  have hall := (hbefore.trans_cleared (clearBit_cleared hclear)).trans_kept hafter
  have hids := hall.ids
  have hcleared := hall.cleared
  rw [hid] at hids hcleared
  exact ⟨hids, hcleared⟩

end GetId

section Devices

variable {ι : Type}

/-- What becomes of a probe: it fails with an identifier, or is refused without one. -/
inductive ProbeOutcome where
  | succeeds | fails | refused
  deriving DecidableEq

def probeOutcome (ret : ℤ) (id : Option ℤ) : ProbeOutcome :=
  if ret = 0 then .succeeds else if 0 ≤ id.getD (-1) then .fails else .refused

theorem probeOutcome_some (ret id : ℤ) : probeOutcome ret (some id) =
    if ret = 0 then .succeeds else if 0 ≤ id then .fails else .refused := rfl

inductive IdLabel (ι : Type) where
  | probe (i : ι) (outcome : ProbeOutcome)
  | remove (i : ι)

def IdLabel.device : IdLabel ι → ι
  | .probe i _ | .remove i => i

/-- The bitmaps, the live devices with their identifiers, what `ulite_get_id` has answered
in the last call and the bits that call has cleared. -/
structure IdState (ι : Type) where
  ids : IdMaps
  held : ι → Option ℤ
  got : Option ℤ
  cleared : List ℤ

def noDevices : IdState ι where
  ids := ⟨fun _ => false, false, fun _ => false⟩
  held := fun _ => none
  got := none
  cleared := []

/-- A probe starts with an empty structure; the rest of a device's memory may have become
anything when it is removed. -/
def IdStep [DecidableEq ι] (console : Bool) (aliases : AliasList) (desc : ι → PlatformDevice)
    (s : IdState ι) (label : IdLabel ι) (t : IdState ι) : Prop :=
  match label with
  | .probe i outcome => s.held i = none ∧ ∃ u v ret,
      u.mem.ids = s.ids ∧ u.mem.id = none ∧ u.trace = [] ∧
      Exec (withMemory uartCore) (uliteProbe console aliases (desc i)) u ret v ∧
      outcome = probeOutcome ret v.mem.id ∧
      t = { ids := v.mem.ids
            held := if ret = 0 then Function.update s.held i v.mem.id else s.held
            got := v.mem.id
            cleared := clearedBits v.trace }
  | .remove i => ∃ id, s.held i = some id ∧ ∃ u v ret,
      u.mem.ids = s.ids ∧ u.mem.id = some id ∧ u.trace = [] ∧
      Exec (withMemory uartCore) (uliteRemove console) u ret v ∧
      t = { ids := v.mem.ids
            held := Function.update s.held i none
            got := none
            cleared := clearedBits v.trace }

/-- The names of the aliases differ, and where the list is complete it has all of them. -/
structure AliasesFit (aliases : AliasList) (desc : ι → PlatformDevice) : Prop where
  status : aliases.status ≤ 0
  bits_lt : ∀ n, aliases.bits n = true → n < maxUartInstances
  listed : aliases.status = 0 → ∀ i n, (desc i).serialAlias = some n → aliases.bits n = true
  unique : ∀ i j n, (desc i).serialAlias = some n → (desc j).serialAlias = some n → i = j

/-- The identifier is new and not reserved for others, the live devices have marked
identifiers in the range, and only the bit of the call's own device is cleared. -/
structure IdsRight (aliases : AliasList) (desc : ι → PlatformDevice) (s : IdState ι)
    (label : IdLabel ι) (t : IdState ι) : Prop where
  fresh : ∀ id, t.got = some id → 0 ≤ id → ∀ j, s.held j ≠ some id
  unreserved : ∀ id, t.got = some id → 0 ≤ id → aliases.bits id.toNat = true →
    (desc label.device).serialAlias = some id.toNat
  live : ∀ j id, t.held j = some id →
    0 ≤ id ∧ id < maxUartInstances ∧ t.ids.bitmap id.toNat = true
  cleared : ∀ nr ∈ t.cleared, 0 ≤ nr ∧ nr < maxUartInstances ∧
    (t.got = some nr ∨ s.held label.device = some nr) ∧
    ∀ j, j ≠ label.device → s.held j ≠ some nr

/-- A device with a `port-number` or a number of its own is only probed with success if its
alias is the same, and only fails if it is, or the number is in the range, not reserved
and not held. -/
def IdsSafe (aliases : AliasList) (desc : ι → PlatformDevice) (s : IdState ι)
    (label : IdLabel ι) (_ : IdState ι) : Prop :=
  match label with
  | .probe i .succeeds => (desc i).requestedId < 0 ∨
      (desc i).serialAlias = some (desc i).requestedId.toNat
  | .probe i .fails => (desc i).requestedId < 0 ∨
      (desc i).serialAlias = some (desc i).requestedId.toNat ∨
      ((desc i).requestedId < maxUartInstances ∧
        aliases.bits (desc i).requestedId.toNat = false ∧
        ∀ j, s.held j ≠ some (desc i).requestedId)
  | .probe _ .refused | .remove _ => True

/-- The set bits are those of the aliases and of the live devices. -/
structure IdsInv (aliases : AliasList) (desc : ι → PlatformDevice) (s : IdState ι) : Prop where
  stored : s.ids.aliasBitmapInitialized = true →
    aliases.status = 0 ∧ s.ids.aliasBitmap = aliases.bits
  live : ∀ i id, s.held i = some id →
    0 ≤ id ∧ id < maxUartInstances ∧ s.ids.bitmap id.toNat = true
  own : ∀ i id, s.held i = some id → aliases.bits id.toNat = true →
    (desc i).serialAlias = some id.toNat
  unique : ∀ i j id, s.held i = some id → s.held j = some id → i = j
  marked : ∀ n : ℕ, s.ids.bitmap n = true → aliases.bits n = true ∨ ∃ i, s.held i = some (n : ℤ)

variable {console : Bool} {aliases : AliasList} {desc : ι → PlatformDevice} {s t : IdState ι}
  {label : IdLabel ι} {i : ι} {id : ℤ} {ids : IdMaps}

theorem idsInv_noDevices : IdsInv aliases desc (noDevices : IdState ι) := by
  constructor
  · intro h
    cases h
  · intro i id h
    cases h
  · intro i id h
    cases h
  · intro i j id h
    cases h
  · intro n h
    cases h

theorem IdsInv.listed_aliasBitmap (hs : IdsInv aliases desc s) :
    (s.ids.listed aliases).aliasBitmap = aliases.bits := by
  by_cases hinit : s.ids.aliasBitmapInitialized = true
  · rw [IdMaps.listed, if_pos hinit]
    exact (hs.stored hinit).2
  · rw [IdMaps.listed, if_neg hinit]

theorem IdsInv.listed_bitmap (hfit : AliasesFit aliases desc) (hs : IdsInv aliases desc s) (n : ℕ) :
    (s.ids.listed aliases).bitmap n = true ↔ s.ids.bitmap n = true ∨ aliases.bits n = true := by
  have hbits : (s.ids.listed aliases).bitmap n =
      (s.ids.bitmap n || (decide (n < maxUartInstances) && aliases.bits n)) := by
    rw [← hs.listed_aliasBitmap]
    rfl
  rw [hbits, Bool.or_eq_true, Bool.and_eq_true, decide_eq_true_eq]
  exact or_congr_right (and_iff_right_of_imp (hfit.bits_lt n))

theorem got_stored (hs : IdsInv aliases desc s) (hgot : GotId aliases (desc i) s.ids id ids)
    (hinit : ids.aliasBitmapInitialized = true) :
    aliases.status = 0 ∧ ids.aliasBitmap = aliases.bits := by
  have hlisted : s.ids.aliasBitmapInitialized = true ∨ aliases.status = 0 →
      aliases.status = 0 ∧ (s.ids.listed aliases).aliasBitmap = aliases.bits :=
    fun hlist => ⟨hlist.elim (fun h => (hs.stored h).1) fun h => h, hs.listed_aliasBitmap⟩
  cases hgot with
  | unlisted hnot => exact absurd (hnot.symm.trans hinit) Bool.false_ne_true
  | wanted hlist => exact hlisted hlist
  | full hlist => exact hlisted hlist
  | free hlist => exact hlisted hlist

section Got

variable (hfit : AliasesFit aliases desc) (hs : IdsInv aliases desc s)
  (hgot : GotId aliases (desc i) s.ids id ids)
include hfit hs hgot

/-- The identifier is the requested one, the alias or a free one. -/
theorem got_cases (hid : 0 ≤ id) :
    aliases.status = 0 ∧
    ((0 ≤ (desc i).requestedId ∧ id = (desc i).requestedId ∧ ids = s.ids.listed aliases) ∨
      ((desc i).requestedId < 0 ∧ ∃ n : ℕ, (desc i).serialAlias = some n ∧ id = n ∧
        ids = s.ids.listed aliases) ∨
      ((desc i).requestedId < 0 ∧ ∃ n : ℕ, n < maxUartInstances ∧ id = n ∧
        (s.ids.listed aliases).bitmap n = false ∧ ids = (s.ids.listed aliases).marked n)) := by
  have hstatus : s.ids.aliasBitmapInitialized = true ∨ aliases.status = 0 → aliases.status = 0 :=
    fun h => h.elim (fun hinit => (hs.stored hinit).1) fun h => h
  cases hgot with
  | unlisted hinit hnone =>
    have hle := hfit.status
    omega
  | wanted hlist hwanted =>
    refine ⟨hstatus hlist, ?_⟩
    rw [PlatformDevice.wantedId]
    by_cases hneg : (desc i).requestedId < 0
    · rw [PlatformDevice.wantedId, if_pos hneg, ofAliasGetId] at hwanted
      rw [if_pos hneg, ofAliasGetId]
      cases halias : (desc i).serialAlias with
      | none =>
        rw [halias] at hwanted
        exact absurd hwanted (by decide)
      | some n => exact .inr (.inl ⟨hneg, n, rfl, rfl, rfl⟩)
    · rw [if_neg hneg]
      exact .inl ⟨Int.not_lt.mp hneg, rfl, rfl⟩
  | full hlist => exact absurd hid (by decide)
  | free hlist hwanted n hn hfree =>
    refine ⟨hstatus hlist, .inr (.inr ⟨?_, n, hn, rfl, hfree, rfl⟩)⟩
    rw [PlatformDevice.wantedId] at hwanted
    split at hwanted
    · assumption
    · exact hwanted

/-- An identifier that was requested by number is the one requested. -/
theorem got_requested (hid : 0 ≤ id) (hnumber : ¬(desc i).requestedId < 0) :
    id = (desc i).requestedId ∧ ids = s.ids.listed aliases := by
  obtain ⟨-, ⟨-, hrequested, hids⟩ | ⟨hneg, -⟩ | ⟨hneg, -⟩⟩ := got_cases hfit hs hgot hid
  · exact ⟨hrequested, hids⟩
  · exact absurd hneg hnumber
  · exact absurd hneg hnumber

/-- An identifier that was not requested by number, or that is the alias too, is new, and
its bit is set. -/
theorem got_right (hi : s.held i = none) (hid : 0 ≤ id)
    (hsafe : (desc i).requestedId < 0 ∨ (desc i).serialAlias = some (desc i).requestedId.toNat) :
    (∀ j, s.held j ≠ some id) ∧
      (aliases.bits id.toNat = true → (desc i).serialAlias = some id.toNat) ∧
      id < maxUartInstances ∧ ids.bitmap id.toNat = true := by
  obtain ⟨hstatus, hcase⟩ := got_cases hfit hs hgot hid
  have halias : ∀ n : ℕ, (desc i).serialAlias = some n → id = n →
      ids = s.ids.listed aliases → (∀ j, s.held j ≠ some id) ∧
      (aliases.bits id.toNat = true → (desc i).serialAlias = some id.toNat) ∧
      id < maxUartInstances ∧ ids.bitmap id.toNat = true := by
    rintro n hn rfl rfl
    have hbits := hfit.listed hstatus i n hn
    have hlt := hfit.bits_lt n hbits
    refine ⟨fun j hj => ?_, fun _ => hn, by omega, (hs.listed_bitmap hfit n).mpr (.inr hbits)⟩
    obtain rfl := hfit.unique j i n (hs.own j n hj hbits) hn
    rw [hi] at hj
    cases hj
  obtain ⟨hpos, hrequested, hids⟩ | ⟨-, n, hn, hnum, hids⟩ | ⟨hneg, n, hn, rfl, hfree, rfl⟩ := hcase
  · obtain hneg | hsame := hsafe
    · omega
    · exact halias _ hsame (by omega) hids
  · exact halias n hn hnum hids
  · have hclear := mt (hs.listed_bitmap hfit n).mpr (by simp [hfree])
    have hclear := not_or.mp hclear
    refine ⟨fun j hj => hclear.1 (hs.live j n hj).2.2, fun hbits => absurd hbits hclear.2,
      by omega, ?_⟩
    exact (IdMaps.marked_bitmap _ _ _).mpr (.inl rfl)

/-- The bits after `ulite_get_id`. -/
theorem got_marked (hid : 0 ≤ id) (n : ℕ) (h : ids.bitmap n = true) :
    s.ids.bitmap n = true ∨ aliases.bits n = true ∨ id = n := by
  obtain ⟨-, ⟨-, -, rfl⟩ | ⟨-, _, -, -, rfl⟩ | ⟨-, m, -, rfl, -, rfl⟩⟩ := got_cases hfit hs hgot hid
  · exact ((hs.listed_bitmap hfit n).mp h).imp_right .inl
  · exact ((hs.listed_bitmap hfit n).mp h).imp_right .inl
  · obtain rfl | h := (IdMaps.marked_bitmap _ _ _).mp h
    · exact .inr (.inr rfl)
    · exact ((hs.listed_bitmap hfit n).mp h).imp_right .inl

theorem got_keeps (n : ℕ) (h : s.ids.bitmap n = true) :
    ids.bitmap n = true := by
  have hlisted := (hs.listed_bitmap hfit n).mpr (.inl h)
  cases hgot with
  | unlisted => exact h
  | wanted => exact hlisted
  | full => exact hlisted
  | free => exact (IdMaps.marked_bitmap _ _ _).mpr (.inr hlisted)

/-! The calls keep the invariant, one after the other. -/

theorem idsInv_refused (hid : id < 0) (cleared : List ℤ) (got : Option ℤ) :
    IdsInv aliases desc ⟨ids, s.held, got, cleared⟩ := by
  constructor
  · exact got_stored hs hgot
  · intro j k hj
    obtain ⟨hpos, hlt, hbit⟩ := hs.live j k hj
    exact ⟨hpos, hlt, got_keeps hfit hs hgot _ hbit⟩
  · exact hs.own
  · exact hs.unique
  · intro n hn
    cases hgot with
    | unlisted => exact hs.marked n hn
    | wanted _ hpos => omega
    | full =>
      obtain hbit | hbit := (hs.listed_bitmap hfit n).mp hn
      · exact hs.marked n hbit
      · exact .inl hbit
    | free => omega

theorem idsInv_fails (hid : 0 ≤ id) (hfresh : ∀ j, s.held j ≠ some id)
    (cleared : List ℤ) (got : Option ℤ) :
    IdsInv aliases desc ⟨ids.cleared id, s.held, got, cleared⟩ := by
  constructor
  · have hstored := got_stored hs hgot
    exact hstored
  · intro j k hj
    obtain ⟨hpos, hlt, hbit⟩ := hs.live j k hj
    refine ⟨hpos, hlt, (IdMaps.cleared_bitmap _ _ _).mpr ⟨fun heq => hfresh j ?_, ?_⟩⟩
    · rw [hj]
      congr 1
      omega
    · exact got_keeps hfit hs hgot _ hbit
  · exact hs.own
  · exact hs.unique
  · intro n hn
    obtain ⟨hne, hn⟩ := (IdMaps.cleared_bitmap _ _ _).mp hn
    obtain hbit | hbit | rfl := got_marked hfit hs hgot hid n hn
    · exact hs.marked n hbit
    · exact .inl hbit
    · exact absurd rfl hne

theorem fails_right (hi : s.held i = none) (hid : 0 ≤ id)
    (ht : t = ⟨ids.cleared id, s.held, some id, [id]⟩) :
    (IdsRight aliases desc s (.probe i .fails) t ↔ IdsSafe aliases desc s (.probe i .fails) t) ∧
      (IdsRight aliases desc s (.probe i .fails) t → IdsInv aliases desc t) := by
  subst ht
  refine ⟨⟨fun hright => ?_, fun hsafe => ?_⟩,
    fun hright => idsInv_fails hfit hs hgot hid (hright.fresh id rfl hid) _ _⟩
  · by_cases hneg : (desc i).requestedId < 0
    · exact .inl hneg
    obtain ⟨rfl, rfl⟩ := got_requested hfit hs hgot hid hneg
    obtain ⟨-, hlt, -⟩ := hright.cleared _ (List.mem_singleton.mpr rfl)
    by_cases hbit : aliases.bits (desc i).requestedId.toNat = true
    · exact .inr (.inl (hright.unreserved _ rfl hid hbit))
    · exact .inr (.inr ⟨hlt, Bool.eq_false_iff.mpr hbit, hright.fresh _ rfl hid⟩)
  · have hnumber : (∀ j, s.held j ≠ some id) ∧
        (aliases.bits id.toNat = true → (desc i).serialAlias = some id.toNat) ∧
        id < maxUartInstances := by
      by_cases hasked : (desc i).requestedId < 0 ∨
          (desc i).serialAlias = some (desc i).requestedId.toNat
      · obtain ⟨hfresh, hown, hlt, -⟩ := got_right hfit hs hgot hi hid hasked
        exact ⟨hfresh, hown, hlt⟩
      obtain ⟨hneg, hother⟩ := not_or.mp hasked
      obtain h | h | ⟨hlt, hfree, hfresh⟩ := hsafe
      · exact absurd h hneg
      · exact absurd h hother
      obtain ⟨rfl, -⟩ := got_requested hfit hs hgot hid hneg
      exact ⟨hfresh, fun hbit => absurd (hfree.symm.trans hbit) Bool.false_ne_true, hlt⟩
    obtain ⟨hfresh, hown, hlt⟩ := hnumber
    constructor
    · rintro _ ⟨⟩ -
      exact hfresh
    · rintro _ ⟨⟩ -
      exact hown
    · exact (idsInv_fails hfit hs hgot hid hfresh [] none).live
    · intro nr hnr
      obtain rfl := List.mem_singleton.mp hnr
      exact ⟨hid, hlt, .inl rfl, fun j _ => hfresh j⟩

variable [DecidableEq ι]

theorem idsInv_succeeds (hid : 0 ≤ id) (hfresh : ∀ j, s.held j ≠ some id)
    (hown : aliases.bits id.toNat = true → (desc i).serialAlias = some id.toNat)
    (hlt : id < maxUartInstances) (hbit : ids.bitmap id.toNat = true) (hi : s.held i = none)
    (cleared : List ℤ) (got : Option ℤ) :
    IdsInv aliases desc ⟨ids, Function.update s.held i (some id), got, cleared⟩ := by
  have hheld : ∀ j k, Function.update s.held i (some id) j = some k →
      (j = i ∧ k = id) ∨ (j ≠ i ∧ s.held j = some k) := by
    intro j k hj
    rw [Function.update_apply] at hj
    split at hj
    · exact .inl ⟨by assumption, (Option.some.inj hj).symm⟩
    · exact .inr ⟨by assumption, hj⟩
  constructor
  · exact got_stored hs hgot
  · intro j k hj
    obtain ⟨rfl, rfl⟩ | ⟨-, hj⟩ := hheld j k hj
    · exact ⟨hid, hlt, hbit⟩
    · obtain ⟨hpos, hlt, hbit⟩ := hs.live j k hj
      exact ⟨hpos, hlt, got_keeps hfit hs hgot _ hbit⟩
  · intro j k hj
    obtain ⟨rfl, rfl⟩ | ⟨-, hj⟩ := hheld j k hj
    · exact hown
    · exact hs.own j k hj
  · intro j j' k hj hj'
    obtain ⟨rfl, rfl⟩ | ⟨-, hold⟩ := hheld j k hj
    · obtain ⟨rfl, -⟩ | ⟨-, hold'⟩ := hheld j' k hj'
      · rfl
      · exact absurd hold' (hfresh j')
    · obtain ⟨-, rfl⟩ | ⟨-, hold'⟩ := hheld j' k hj'
      · exact absurd hold (hfresh j)
      · exact hs.unique j j' k hold hold'
  · intro n hn
    obtain hbit | hbit | rfl := got_marked hfit hs hgot hid n hn
    · obtain hbit | ⟨j, hj⟩ := hs.marked n hbit
      · exact .inl hbit
      · refine .inr ⟨j, (Function.update_of_ne ?_ _ _).trans hj⟩
        rintro rfl
        cases hi.symm.trans hj
    · exact .inl hbit
    · exact .inr ⟨i, Function.update_self i _ _⟩

theorem succeeds_right (hi : s.held i = none) (hid : 0 ≤ id)
    (ht : t = ⟨ids, Function.update s.held i (some id), some id, []⟩) :
    (IdsRight aliases desc s (.probe i .succeeds) t ↔
      IdsSafe aliases desc s (.probe i .succeeds) t) ∧
      (IdsRight aliases desc s (.probe i .succeeds) t → IdsInv aliases desc t) := by
  subst ht
  have hkeep : IdsRight aliases desc s (.probe i .succeeds)
      ⟨ids, Function.update s.held i (some id), some id, []⟩ →
      IdsInv aliases desc ⟨ids, Function.update s.held i (some id), some id, []⟩ := by
    intro hright
    obtain ⟨-, hlt, hbit⟩ := hright.live i id (Function.update_self i _ _)
    exact idsInv_succeeds hfit hs hgot hid (hright.fresh id rfl hid)
      (hright.unreserved id rfl hid) hlt hbit hi _ _
  refine ⟨⟨fun hright => ?_, fun hsafe => ?_⟩, hkeep⟩
  · by_cases hneg : (desc i).requestedId < 0
    · exact .inl hneg
    obtain ⟨rfl, rfl⟩ := got_requested hfit hs hgot hid hneg
    obtain ⟨-, hlt, hbit⟩ := hright.live i _ (Function.update_self i _ _)
    refine .inr (hright.unreserved _ rfl hid ?_)
    -- a bit that no live device has marked is that of an alias
    obtain hbit | hbit := (hs.listed_bitmap hfit _).mp hbit
    · obtain hbit | ⟨j, hj⟩ := hs.marked _ hbit
      · exact hbit
      · rw [Int.toNat_of_nonneg hid] at hj
        exact absurd hj (hright.fresh _ rfl hid j)
    · exact hbit
  · obtain ⟨hfresh, hown, hlt, hbit⟩ := got_right hfit hs hgot hi hid hsafe
    constructor
    · rintro _ ⟨⟩ -
      exact hfresh
    · rintro _ ⟨⟩ -
      exact hown
    · exact (idsInv_succeeds hfit hs hgot hid hfresh hown hlt hbit hi [] none).live
    · intro nr hnr
      cases hnr

end Got

theorem refused_right (hgot : ∀ id, t.got = some id → id < 0) (hcleared : t.cleared = [])
    (ht : IdsInv aliases desc t) : IdsRight aliases desc s (.probe i .refused) t := by
  constructor
  · intro id hid hpos
    exact absurd (hgot id hid) (Int.not_lt.mpr hpos)
  · intro id hid hpos
    exact absurd (hgot id hid) (Int.not_lt.mpr hpos)
  · exact ht.live
  · intro nr hnr
    rw [hcleared] at hnr
    cases hnr

variable [DecidableEq ι]

theorem idsInv_remove (hs : IdsInv aliases desc s) (hi : s.held i = some id) (cleared : List ℤ)
    (got : Option ℤ) :
    IdsInv aliases desc ⟨s.ids.cleared id, Function.update s.held i none, got, cleared⟩ := by
  have hheld : ∀ j k, Function.update s.held i none j = some k → j ≠ i ∧ s.held j = some k := by
    intro j k hj
    rw [Function.update_apply] at hj
    split at hj
    · cases hj
    · exact ⟨by assumption, hj⟩
  obtain ⟨hid, -, -⟩ := hs.live i id hi
  constructor
  · exact hs.stored
  · intro j k hj
    obtain ⟨hne, hold⟩ := hheld j k hj
    obtain ⟨hpos, hlt, hbit⟩ := hs.live j k hold
    refine ⟨hpos, hlt, (IdMaps.cleared_bitmap _ _ _).mpr ⟨fun heq => hne ?_, hbit⟩⟩
    obtain rfl : k = id := by omega
    exact hs.unique j i k hold hi
  · exact fun j k hj => hs.own j k (hheld j k hj).2
  · exact fun j j' k hj hj' => hs.unique j j' k (hheld j k hj).2 (hheld j' k hj').2
  · intro n hn
    obtain ⟨hne, hn⟩ := (IdMaps.cleared_bitmap _ _ _).mp hn
    obtain hbit | ⟨j, hj⟩ := hs.marked n hn
    · exact .inl hbit
    · refine .inr ⟨j, (Function.update_of_ne ?_ _ _).trans hj⟩
      rintro rfl
      obtain rfl := Option.some.inj (hj.symm.trans hi)
      exact hne rfl

theorem remove_right (hs : IdsInv aliases desc s) (hi : s.held i = some id)
    (ht : t = ⟨s.ids.cleared id, Function.update s.held i none, none, [id]⟩) :
    IdsRight aliases desc s (.remove i) t := by
  subst ht
  obtain ⟨hid, hlt, -⟩ := hs.live i id hi
  constructor
  · intro _ h
    cases h
  · intro _ h
    cases h
  · exact (idsInv_remove hs hi [] none).live
  · intro nr hnr
    obtain rfl := List.mem_singleton.mp hnr
    exact ⟨hid, hlt, .inr hi, fun j hne hj => hne (hs.unique j i _ hj hi)⟩

theorem idStep_right (hfit : AliasesFit aliases desc) (hs : IdsInv aliases desc s)
    (h : IdStep console aliases desc s label t) :
    (IdsRight aliases desc s label t ↔ IdsSafe aliases desc s label t) ∧
      (IdsRight aliases desc s label t → IdsInv aliases desc t) := by
  cases label with
  | probe i outcome =>
    obtain ⟨hi, u, v, ret, hids, hnone, htrace, hrun, houtcome, ht⟩ := h
    obtain ⟨hret, hkept⟩ | ⟨id, ids, hgot, hid, hcase⟩ := probe_ids hrun
    · -- no identifier
      rw [if_neg hret, hkept.ids, hids, hkept.id, hnone, hkept.cleared, htrace] at ht
      rw [hkept.id, hnone, probeOutcome, if_neg hret, if_neg (by decide)] at houtcome
      have hinv : IdsInv aliases desc t := ht ▸ ⟨hs.stored, hs.live, hs.own, hs.unique, hs.marked⟩
      rw [houtcome]
      have hright : IdsRight aliases desc s (.probe i .refused) t := by
        refine refused_right (fun id h => ?_) ?_ hinv
        · rw [ht] at h
          cases h
        · rw [ht]
          rfl
      exact ⟨iff_of_true hright trivial, fun _ => hinv⟩
    rw [hids] at hgot
    obtain ⟨hneg, hret, hids', hcleared⟩ | ⟨hpos, hret, hids', hcleared⟩ |
      ⟨hpos, hret, hids', hcleared⟩ := hcase
    · rw [if_neg hret, hids', hid, hcleared, htrace] at ht
      rw [hid, probeOutcome_some, if_neg hret, if_neg (Int.not_le.mpr hneg)] at houtcome
      have hinv : IdsInv aliases desc t := ht ▸ idsInv_refused hfit hs hgot hneg _ _
      rw [houtcome]
      have hright : IdsRight aliases desc s (.probe i .refused) t := by
        refine refused_right (fun k hk => ?_) ?_ hinv
        · rw [ht] at hk
          exact Option.some.inj hk ▸ hneg
        · rw [ht]
          rfl
      exact ⟨iff_of_true hright trivial, fun _ => hinv⟩
    · rw [if_pos hret, hids', hid, hcleared, htrace] at ht
      rw [probeOutcome, if_pos hret] at houtcome
      rw [houtcome]
      exact succeeds_right hfit hs hgot hi hpos ht
    · rw [if_neg hret, hids', hid, hcleared, htrace] at ht
      rw [hid, probeOutcome_some, if_neg hret, if_pos hpos] at houtcome
      rw [houtcome]
      exact fails_right hfit hs hgot hi hpos ht
  | remove i =>
    obtain ⟨id, hi, u, v, ret, hids, hid, htrace, hrun, ht⟩ := h
    obtain ⟨hids', hcleared⟩ := remove_ids hid hrun
    rw [hids', hids, hcleared, htrace] at ht
    exact ⟨iff_of_true (remove_right hs hi ht) trivial,
      fun _ => ht ▸ idsInv_remove hs hi _ _⟩

/-- The identifiers are right at every step of a run exactly if every step is safe. -/
theorem ids_right_iff (console : Bool) (aliases : AliasList) (desc : ι → PlatformDevice)
    (hfit : AliasesFit aliases desc) (l : List (IdLabel ι × IdState ι))
    (hrun : Run (IdStep console aliases desc) noDevices l) :
    Everywhere (IdsRight aliases desc) noDevices l ↔
      Everywhere (IdsSafe aliases desc) noDevices l := by
  have hstep : ∀ s label t, IdsInv aliases desc s → IdStep console aliases desc s label t →
      (IdsRight aliases desc s label t ↔ IdsSafe aliases desc s label t) ∧
        (IdsRight aliases desc s label t → IdsInv aliases desc t) :=
    fun _ _ _ hs hstep => idStep_right hfit hs hstep
  exact hrun.everywhere_iff hstep idsInv_noDevices

end Devices

section Runs

def newPort (ids : IdMaps) : Sys := unprobed.withMem { unprobed.mem with ids := ids }

def probed (results : Port → ℤ) (aliases : AliasList) (pdev : PlatformDevice) (ids : IdMaps) :
    ℤ × Sys :=
  (after results (uliteProbe false aliases pdev) (newPort ids)).getD (0, newPort ids)

variable {ι : Type} [DecidableEq ι]

def IdState.probed (s : IdState ι) (results : Port → ℤ) (aliases : AliasList)
    (desc : ι → PlatformDevice) (i : ι) : IdState ι :=
  let v := Uart.probed results aliases (desc i) s.ids
  { ids := v.2.mem.ids
    held := if v.1 = 0 then Function.update s.held i v.2.mem.id else s.held
    got := v.2.mem.id
    cleared := clearedBits v.2.trace }

theorem idStep_probed {results : Port → ℤ} {aliases : AliasList} {desc : ι → PlatformDevice}
    {s : IdState ι} {i : ι} {outcome : ProbeOutcome} (hi : s.held i = none)
    (hrun : after results (uliteProbe false aliases (desc i)) (newPort s.ids) =
      some (probed results aliases (desc i) s.ids))
    (houtcome : outcome = probeOutcome (probed results aliases (desc i) s.ids).1
      (probed results aliases (desc i) s.ids).2.mem.id) :
    IdStep false aliases desc s (.probe i outcome) (s.probed results aliases desc i) :=
  ⟨hi, newPort s.ids, _, _, rfl, rfl, rfl, exec_after_core hrun, houtcome, rfl⟩

def aliasOne : AliasList := ⟨0, fun n => n == 1⟩

/-- A device with the alias 1, and one without. -/
def aliasedAndPlain (i : Bool) : PlatformDevice :=
  if i = true then ⟨none, -1, some 1⟩ else plainDevice

theorem aliasesFit_aliasedAndPlain : AliasesFit aliasOne aliasedAndPlain := by
  constructor
  · decide
  · intro n hn
    obtain rfl := beq_iff_eq.mp hn
    decide
  · intro _ i n hn
    cases i with
    | false => cases hn
    | true =>
      obtain rfl := Option.some.inj hn
      rfl
  · intro i j n hi hj
    cases i with
    | false => cases hi
    | true =>
      cases j with
      | false => cases hj
      | true => rfl

def plainProbed : IdState Bool := noDevices.probed willing aliasOne aliasedAndPlain false
def bothProbed : IdState Bool := plainProbed.probed willing aliasOne aliasedAndPlain true

/-- The identifiers 0 and 1 are found for the two devices. -/
theorem ids_right_both : bothProbed.held false = some 0 ∧ bothProbed.held true = some 1 ∧
    Everywhere (IdsRight aliasOne aliasedAndPlain) noDevices
      [(.probe false .succeeds, plainProbed), (.probe true .succeeds, bothProbed)] := by
  refine ⟨rfl, rfl, (ids_right_iff false aliasOne aliasedAndPlain aliasesFit_aliasedAndPlain _
    ?_).mpr ⟨.inl (by decide), .inl (by decide), trivial⟩⟩
  exact .cons (idStep_probed rfl rfl rfl) (.cons (idStep_probed rfl rfl rfl) (.nil _))

def noAliases : AliasList := ⟨0, fun _ => false⟩

/-- Both devices have the `port-number` 3. -/
def portThree (_ : Bool) : PlatformDevice := ⟨some 3, -1, none⟩

theorem aliasesFit_portThree : AliasesFit noAliases portThree := by
  constructor
  · decide
  · intro n hn
    cases hn
  · intro _ i n hn
    cases hn
  · intro i j n hn
    cases hn

def threeProbed : IdState Bool := noDevices.probed willing noAliases portThree false
def threeTwice : IdState Bool := threeProbed.probed willing noAliases portThree true

/-- Two live devices hold the identifier 3. -/
theorem id_held_twice : ¬∀ aliases (desc : Bool → PlatformDevice), AliasesFit aliases desc →
    ∀ l, Run (IdStep false aliases desc) noDevices l →
      Everywhere (IdsRight aliases desc) noDevices l := by
  intro h
  have hright := h noAliases portThree aliasesFit_portThree
    [(.probe false .succeeds, threeProbed), (.probe true .succeeds, threeTwice)]
    (.cons (idStep_probed rfl rfl rfl) (.cons (idStep_probed rfl rfl rfl) (.nil _)))
  exact hright.2.1.fresh 3 rfl (by decide) false rfl

end Runs

end PynqPrio.Uart
