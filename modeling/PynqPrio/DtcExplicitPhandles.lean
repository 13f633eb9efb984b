import PynqPrio.DtcReferences

/-!
# Handles that a source gives

The first check reads the handles that nodes have by properties of their own. Where it does not fail,
the handles are distinct, and the second check makes up handles that nobody has.
-/
namespace PynqPrio.Dtc
open Formats Stores
open Libfdt (ok_bind phandleString linuxPhandleString)

section Values

variable {t tree : Node} {pos : List ℕ} {i : NodeInfo} {name : CString} {v v' chosen : BitVec 32} {bad : Bool}

/-- What the check of a property finds: its handle, or 0 where the property is to be filled in. -/
structure Checked (tree : Node) (pos : List ℕ) (props : List Property) (name : CString) (v : BitVec 32)
    (bad : Bool) : Prop where
  valid : v ≠ 0xFFFFFFFF#32
  present : v ≠ 0 → (propOf name props).isSome
  good : bad = false → ∀ p, propOf name props = some p → p.val.val.length = 4 ∧
    ((∃ m ∈ p.val.markers, m.type = .refPhandle ∧ m.offset = 0 ∧ getNodeByRef tree m.ref = some pos) ∨
      (∀ m ∈ p.val.markers, m.type ≠ .refPhandle) ∧ p.val.val = toBytes 4 v.toNat ∧ v ≠ 0)

theorem bears_of_checked (hskeleton : skeleton tree = skeleton t) (h : Checked tree pos i.proplist name v false)
    (hphandle : v ≠ 0 → i.phandle = v) : Bears t pos i name := by
  intro p hp
  obtain ⟨hfour, ⟨m, hm, htype, hoffset, href⟩ | ⟨hnone, hval, hne⟩⟩ := h.good rfl p hp
  · exact ⟨hfour, .inl ⟨m, hm, htype, hoffset, (getNodeByRef_of_skeleton hskeleton m.ref).symm.trans href⟩⟩
  · have hsame := hphandle hne
    exact ⟨hfour, .inr ⟨hnone, by rw [hval, hsame], by rwa [hsame]⟩⟩

theorem checkPhandleProp_spec (tree : Node) (pos : List ℕ)
    (hmarked : ∀ p, propOf name i.proplist = some p → p.val.Marked) :
    ∃ v bad, checkPhandleProp tree pos i name = .ok (v, bad) ∧ Checked tree pos i.proplist name v bad := by
  rw [checkPhandleProp]
  cases hp : propOf name i.proplist with
  | none =>
    refine ⟨0, false, rfl, by decide, fun h => absurd rfl h, fun _ p hp' => ?_⟩
    cases hp.symm.trans hp'
  | some p =>
    dsimp only
    have hnone : ∀ {v : BitVec 32}, v ≠ 0 → (propOf name i.proplist).isSome := fun _ => by rw [hp]; rfl
    by_cases hlen : p.val.val.length ≠ 4
    · rw [if_pos hlen]
      exact ⟨0, true, rfl, by decide, fun h => absurd rfl h, fun h => absurd h Bool.true_eq_false.mp⟩
    rw [if_neg hlen]
    have hfour := not_not.mp hlen
    cases hm : p.val.markers.find? (·.type = .refPhandle) with
    | some m =>
      have hmem := List.mem_of_find?_eq_some hm
      have htype : m.type = .refPhandle := by simpa using List.find?_some hm
      have hbound := (hmarked p hp).bound m hmem htype
      have hoffset : m.offset = 0 := by omega
      have hzero : ¬m.offset ≠ 0 := not_not.mpr hoffset
      dsimp only
      rw [if_neg hzero]
      refine ⟨0, _, rfl, by decide, fun h => absurd rfl h, fun hbad p' hp' => ?_⟩
      obtain rfl := Option.some.inj (hp.symm.trans hp')
      exact ⟨hfour, .inl ⟨m, hmem, htype, hoffset, not_not.mp (of_decide_eq_false hbad)⟩⟩
    | none =>
      dsimp only
      split
      · exact ⟨0, true, rfl, by decide, fun h => absurd rfl h, fun h => absurd h Bool.true_eq_false.mp⟩
      · next hvalid =>
        rw [not_or] at hvalid
        refine ⟨_, false, rfl, hvalid.2, hnone, fun _ p' hp' => ?_⟩
        obtain rfl := Option.some.inj (hp.symm.trans hp')
        have hlt : ofBytes p.val.val < 2 ^ 32 := by
          have hlt := ofBytes_lt p.val.val
          rwa [hfour] at hlt
        refine ⟨hfour, .inr ⟨fun m hm' htype => ?_, ?_, hvalid.1⟩⟩
        · exact absurd htype (by simpa using List.find?_eq_none.mp hm m hm')
        · rw [BitVec.toNat_ofNat, Nat.mod_eq_of_lt hlt, ← hfour, toBytes_ofBytes]

end Values

section Pass

variable {t : Node} {s : CheckState} {pos : List ℕ} {rest : List (List ℕ)} {i : NodeInfo} {v : BitVec 32}

theorem nodup_livePositionsBelow {cs : List Node} (h : ∀ c ∈ cs, (livePositions c).Nodup) (i : ℕ) :
    (livePositionsBelow cs i).Nodup := by
  induction cs generalizing i with
  | nil => exact List.nodup_nil
  | cons c cs ih =>
    rw [livePositionsBelow]
    refine List.Nodup.append ?_ (ih (fun c hc => h c (List.mem_cons_of_mem _ hc)) (i + 1)) fun pos hpos hpos' => ?_
    · split
      · exact List.nodup_nil
      · exact (h c List.mem_cons_self).map fun _ _ heq => (List.cons.inj heq).2
    · obtain ⟨j, -, pos', rfl, -⟩ := mem_livePositionsBelow.mp hpos'
      split at hpos
      · exact absurd hpos List.not_mem_nil
      · obtain ⟨pos'', -, heq⟩ := List.mem_map.mp hpos
        have hindex := (List.cons.inj heq).1
        omega

theorem nodup_livePositions (t : Node) : (livePositions t).Nodup := by
  induction t with
  | mk info children ih =>
    rw [livePositions, List.nodup_cons]
    refine ⟨fun h => ?_, nodup_livePositionsBelow ih 0⟩
    obtain ⟨j, c, pos', heq, -⟩ := mem_livePositionsBelow.mp h
    cases heq

/-- What the first check keeps while the nodes of `rest` are left. -/
structure Explicit (t : Node) (rest : List (List ℕ)) (s : CheckState) : Prop where
  next : s.nextPhandle = 1
  skeleton : skeleton s.tree = skeleton t
  infos : ∀ pos i, infoAt pos t = some i → ∃ phandle, infoAt pos s.tree = some { i with phandle }
  left : ∀ pos ∈ rest, phandleAt pos s.tree = 0
  distinct : Distinct s.tree
  borne : s.failed = false → ∀ pos ∈ livePositions t, pos ∉ rest → ∀ i, infoAt pos s.tree = some i → Borne t pos i

theorem Explicit.skip (h : Explicit t (pos :: rest) s) (failed : Bool)
    (hborne : failed = false → s.failed = false ∧ ∀ i, infoAt pos s.tree = some i → Borne t pos i) :
    Explicit t rest { s with failed } where
  next := h.next
  skeleton := h.skeleton
  infos := h.infos
  left pos' hpos' := h.left pos' (List.mem_cons_of_mem _ hpos')
  distinct := h.distinct
  borne hfailed pos' hpos' hrest i hi := by
    obtain ⟨hfine, hhere⟩ := hborne hfailed
    by_cases hpos : pos' = pos
    · subst hpos
      exact hhere i hi
    · exact h.borne hfine pos' hpos' (fun hmem => (List.mem_cons.mp hmem).elim hpos hrest) i hi

/-- The node gets the handle that its properties have, which no node has had. -/
theorem Explicit.assign (h : Explicit t (pos :: rest) s) (hnotin : pos ∉ rest) {chosen : BitVec 32}
    (hi : infoAt pos s.tree = some i) (hzero : i.phandle = 0) (hvalid : chosen ≠ 0xFFFFFFFF#32)
    (hfresh : ∀ pos' ∈ livePositions s.tree, phandleAt pos' s.tree ≠ chosen) {failed : Bool}
    (hborne : failed = false → s.failed = false ∧ Borne t pos { i with phandle := chosen }) :
    Explicit t rest { s with
      tree := updateInfoAt pos (fun info => { info with phandle := chosen }) s.tree
      failed } where
  next := h.next
  skeleton := (skeleton_updateInfoAt (f := fun info => { info with phandle := chosen }) (fun _ => rfl) pos
    s.tree).trans h.skeleton
  infos pos' i' hi' := by
    obtain ⟨phandle, hold⟩ := h.infos pos' i' hi'
    by_cases hpos : pos' = pos
    · subst hpos
      exact ⟨chosen, by rw [infoAt_updateInfoAt_self, hold]; rfl⟩
    · exact ⟨phandle, by rw [infoAt_updateInfoAt_of_ne hpos, hold]⟩
  left pos' hpos' := by
    have hne : pos' ≠ pos := fun heq => hnotin (heq ▸ hpos')
    exact (phandleAt_updateInfoAt_of_ne hne s.tree).trans (h.left pos' (List.mem_cons_of_mem _ hpos'))
  distinct := h.distinct.update hi (fun _ => rfl) (.inr ⟨hzero, hvalid, hfresh⟩)
  borne hfailed pos' hpos' hrest i' hi' := by
    obtain ⟨hfine, hhere⟩ := hborne hfailed
    by_cases hpos : pos' = pos
    · subst hpos
      rw [infoAt_updateInfoAt_self, hi] at hi'
      obtain rfl := Option.some.inj hi'
      exact hhere
    · rw [infoAt_updateInfoAt_of_ne hpos] at hi'
      exact h.borne hfine pos' hpos' (fun hmem => (List.mem_cons.mp hmem).elim hpos hrest) i' hi'

theorem checkExplicitPhandles_spec (halive : t.deleted = false) (hmarked : t.Marked)
    (hsuffix : (pos :: rest) <:+ livePositions t) (h : Explicit t (pos :: rest) s) :
    ∃ s', checkExplicitPhandles s pos = .ok s' ∧ Explicit t rest s' := by
  have hpos : pos ∈ livePositions t := hsuffix.subset List.mem_cons_self
  have hnotin : pos ∉ rest := (List.nodup_cons.mp ((nodup_livePositions t).sublist hsuffix.sublist)).1
  obtain ⟨i₀, hi₀⟩ := exists_infoAt hpos
  obtain ⟨phandle, hi⟩ := h.infos pos i₀ hi₀
  have hprops : ∀ name p, propOf name i₀.proplist = some p → p.val.Marked := by
    intro name p hp
    obtain ⟨k, hk⟩ := List.mem_iff_getElem?.mp (live_eq_some hp).1
    exact hmarked pos hpos k p (by rw [propAt, hi₀]; exact hk)
  obtain ⟨i, hi', hproplist⟩ : ∃ i, infoAt pos s.tree = some i ∧ i.proplist = i₀.proplist := ⟨_, hi, rfl⟩
  have hzero : i.phandle = 0 := (phandleAt_eq hi').symm.trans (h.left pos List.mem_cons_self)
  have hassert : ¬i.phandle ≠ 0 := not_not.mpr hzero
  obtain ⟨v, bad, hv, hchecked⟩ := checkPhandleProp_spec s.tree pos (i := i) (hproplist ▸ hprops phandleString)
  obtain ⟨v', bad', hv', hchecked'⟩ := checkPhandleProp_spec s.tree pos (i := i)
    (hproplist ▸ hprops linuxPhandleString)
  rw [checkExplicitPhandles, hi']
  dsimp only
  rw [if_neg hassert, hv, ok_bind, hv', ok_bind]
  dsimp only
  by_cases hboth : v = 0 ∧ v' = 0
  · rw [if_pos hboth]
    refine ⟨_, rfl, h.skip _ fun hfailed => ?_⟩
    rw [Bool.or_eq_false_iff, Bool.or_eq_false_iff] at hfailed
    obtain ⟨⟨hfine, rfl⟩, rfl⟩ := hfailed
    refine ⟨hfine, fun i' heq => ?_⟩
    obtain rfl := Option.some.inj (hi'.symm.trans heq)
    exact ⟨bears_of_checked h.skeleton hchecked fun hne => absurd hboth.1 hne,
      bears_of_checked h.skeleton hchecked' fun hne => absurd hboth.2 hne, fun hne => absurd hzero hne⟩
  rw [if_neg hboth]
  obtain ⟨chosen, hchosen⟩ : ∃ chosen, chosen = if v = 0 then v' else v := ⟨_, rfl⟩
  rw [← hchosen]
  have hne : chosen ≠ 0 := by
    rw [hchosen]
    split
    · next hv => exact fun hv' => hboth ⟨hv, hv'⟩
    · next hv => exact hv
  cases hany : (getNodeByPhandle chosen s.tree).any (· ≠ pos) with
  | true => exact ⟨_, rfl, h.skip true fun hfailed => absurd hfailed Bool.true_eq_false.mp⟩
  | false =>
    rw [if_neg Bool.false_ne_true]
    have hlive : s.tree.deleted = false := by rw [← deleted_skeleton, h.skeleton, deleted_skeleton, halive]
    have hfind : getNodeByPhandle chosen s.tree = none := by
      cases hfind : getNodeByPhandle chosen s.tree with
      | none => rfl
      | some pos' =>
        -- only the node itself could have been found, and it has no handle yet
        rw [hfind] at hany
        obtain rfl : pos' = pos := by simpa using hany
        rw [getNodeByPhandle_eq_find hlive] at hfind
        have hat := List.find?_some hfind
        rw [decide_eq_true_iff] at hat
        exact absurd (hat.symm.trans ((phandleAt_eq hi').trans hzero)) hne
    refine ⟨_, rfl, h.assign hnotin hi' hzero ?_ ((getNodeByPhandle_eq_none hlive).mp hfind) fun hfailed => ?_⟩
    · rw [hchosen]
      split
      · exact hchecked'.valid
      · exact hchecked.valid
    · rw [Bool.or_eq_false_iff, Bool.or_eq_false_iff, Bool.or_eq_false_iff] at hfailed
      obtain ⟨⟨⟨hfine, rfl⟩, rfl⟩, hsame⟩ := hfailed
      refine ⟨hfine, bears_of_checked h.skeleton hchecked fun hv => ?_,
        bears_of_checked h.skeleton hchecked' fun hv' => ?_, fun _ => ?_⟩
      · exact hchosen.trans (if_neg hv)
      · by_cases hv : v = 0
        · exact hchosen.trans (if_pos hv)
        · have heq : v = v' := by
            by_contra hdiffer
            exact of_decide_eq_false hsame ⟨hv', hv, hdiffer⟩
          exact (hchosen.trans (if_neg hv)).trans heq
      · by_cases hv : v = 0
        · exact .inr (hchecked'.present fun hv' => hboth ⟨hv, hv'⟩)
        · exact .inl (hchecked.present hv)

/-- The first check comes to its end, and where it does not fail the second can start. -/
theorem explicit_spec (halive : t.deleted = false) (hmarked : t.Marked)
    (hzero : ∀ pos ∈ livePositions t, phandleAt pos t = 0) :
    ∃ s, checkNodesProps checkExplicitPhandles ⟨t, 1, false⟩ = .ok s ∧ Explicit t [] s := by
  have hstart : Explicit t (livePositions t) ⟨t, 1, false⟩ := by
    refine ⟨rfl, rfl, fun pos i hi => ⟨i.phandle, hi⟩, hzero, ⟨fun pos hpos _ _ _ hne => absurd (hzero pos hpos) hne,
      fun pos hpos heq => ?_⟩, fun _ pos hpos hnot => absurd hpos hnot⟩
    exact absurd ((hzero pos hpos).symm.trans heq) (by decide)
  exact foldlM_rest (fun pos rest s hsuffix h => checkExplicitPhandles_spec halive hmarked hsuffix h) _ hstart

theorem Explicit.propAt (h : Explicit t [] s) (pos : List ℕ) (k : ℕ) (hpos : pos ∈ livePositions t) :
    Dtc.propAt pos k s.tree = Dtc.propAt pos k t := by
  obtain ⟨i, hi⟩ := exists_infoAt hpos
  obtain ⟨phandle, hi'⟩ := h.infos pos i hi
  rw [Dtc.propAt, Dtc.propAt, hi, hi']
  rfl

theorem Explicit.invariant (h : Explicit t [] s) (hfine : s.failed = false) : Invariant s.tree s where
  skeleton := rfl
  kept _ i hi := ⟨i, hi, .refl i⟩
  distinct := h.distinct
  taken x hx hlt := by
    rw [h.next] at hlt
    exact absurd hlt (Nat.not_lt.mpr hx)
  next := by rw [h.next]; decide
  borne pos hpos i hi := by
    have hborne := h.borne hfine pos (livePositions_of_skeleton h.skeleton ▸ hpos) List.not_mem_nil i hi
    have hbears : ∀ name, Bears t pos i name → Bears s.tree pos i name := by
      intro name hname p hp
      obtain ⟨hfour, ⟨m, hm, htype, hoffset, href⟩ | hvalue⟩ := hname p hp
      · exact ⟨hfour, .inl ⟨m, hm, htype, hoffset, (getNodeByRef_of_skeleton h.skeleton m.ref).trans href⟩⟩
      · exact ⟨hfour, .inr hvalue⟩
    exact ⟨hbears _ hborne.epapr, hbears _ hborne.legacy, hborne.some⟩

theorem Explicit.ready {o : CheckOptions} (h : Explicit t [] s) (hready : Ready o t) : Ready o s.tree where
  alive := by rw [← deleted_skeleton, h.skeleton, deleted_skeleton, hready.alive]
  size := livePositions_of_skeleton h.skeleton ▸ hready.size
  format := hready.format
  marked pos hpos k p hp := by
    have hpos' := livePositions_of_skeleton h.skeleton ▸ hpos
    exact hready.marked pos hpos' k p ((h.propAt pos k hpos').symm.trans hp)

end Pass

section Results

variable {t t₀ : Node} {s : CheckState} {o : CheckOptions} {pos target : List ℕ} {phandle : BitVec 32}

/-- A node has the handle as no other does, and bears it in its properties. -/
structure HasPhandle (t : Node) (pos : List ℕ) (phandle : BitVec 32) : Prop where
  nonzero : phandle ≠ 0
  valid : phandle ≠ 0xFFFFFFFF#32
  found : getNodeByPhandle phandle t = some pos
  borne : ∃ i, infoAt pos t = some i ∧
    ((propOf phandleString i.proplist).isSome ∨ (propOf linuxPhandleString i.proplist).isSome) ∧
    ∀ name ∈ [phandleString, linuxPhandleString], ∀ p, propOf name i.proplist = some p →
      p.val.val = toBytes 4 phandle.toNat

/-- A property for the handle has it, also where it was a reference to the node itself. -/
theorem value_of_bears {i : NodeInfo} {name : CString} {p : Property} (h : Invariant t₀ s)
    (hpos : pos ∈ livePositions t₀) (hinfo : infoAt pos s.tree = some i) (hbears : Bears t₀ pos i name)
    (hfixed : ∀ k m p, IsReference t₀ pos k m p → Fixed o t₀ pos k m s) (hp : propOf name i.proplist = some p) :
    p.val.val = toBytes 4 i.phandle.toNat := by
  obtain ⟨hfour, ⟨m, hm, htype, hoffset, href⟩ | ⟨-, hval, -⟩⟩ := hbears p hp
  · obtain ⟨hmem, hlive, -⟩ := live_eq_some hp
    obtain ⟨k, hk⟩ := List.mem_iff_getElem?.mp hmem
    obtain ⟨i₀, hi₀⟩ := exists_infoAt hpos
    obtain ⟨i', hi', hkept⟩ := h.kept pos i₀ hi₀
    obtain rfl := Option.some.inj (hinfo.symm.trans hi')
    cases hold : i₀.proplist[k]? with
    | none =>
      -- a property that was added has no markers
      have hmarkers := hkept.markers hk (List.getElem?_eq_none_iff.mp hold)
      exact absurd hm (hmarkers ▸ List.not_mem_nil)
    | some p₀ =>
      obtain ⟨val, hval, -⟩ := hkept.props k p₀ hold
      obtain rfl := Option.some.inj (hk.symm.trans hval)
      have hcell := hfixed k m p₀ ⟨hpos, by rw [propAt, hi₀]; exact hold, Bool.not_eq_true' _ ▸ hlive, hm, htype⟩
      rw [Fixed, href] at hcell
      obtain ⟨-, q, hq, hplace⟩ := hcell
      rw [propAt, hinfo] at hq
      obtain rfl := Option.some.inj (hk.symm.trans hq)
      rw [hoffset, phandleAt_eq hinfo] at hplace
      exact (hasAt_zero_self _).unique hplace (hfour.trans (length_toBytes 4 _).symm)
  · exact hval

theorem hasPhandle_of_fixed (halive : t₀.deleted = false) (h : Invariant t₀ s) (hpos : pos ∈ livePositions t₀)
    (hne : phandleAt pos s.tree ≠ 0) (hfixed : ∀ k m p, IsReference t₀ pos k m p → Fixed o t₀ pos k m s) :
    HasPhandle s.tree pos (phandleAt pos s.tree) := by
  have hlive : s.tree.deleted = false := by rw [← deleted_skeleton, h.skeleton, deleted_skeleton, halive]
  have hpos' : pos ∈ livePositions s.tree := h.live ▸ hpos
  obtain ⟨i, hi⟩ := exists_infoAt hpos'
  have hat := phandleAt_eq hi
  have hborne := h.borne pos hpos i hi
  refine ⟨hne, h.distinct.valid pos hpos', getNodeByPhandle_of_unique hlive hpos' fun pos' hpos'' heq =>
    h.distinct.unique pos' hpos'' pos hpos' heq (heq ▸ hne), i, hi, hborne.some (hat ▸ hne), fun name hname p hp => ?_⟩
  rw [hat]
  rcases List.mem_cons.mp hname with rfl | hname
  · exact value_of_bears h hpos hi hborne.epapr hfixed hp
  · obtain rfl := List.mem_singleton.mp hname
    exact value_of_bears h hpos hi hborne.legacy hfixed hp

/-- Both checks come to their end. The first changes handles only, the second handles, properties that it
adds for them, and cells with references. Where the checks do not fail, such a cell has the handle of the
node that its reference is resolved to, or a plugin leaves it open. -/
theorem references_fixed (hready : Ready o t) (hzero : ∀ pos ∈ livePositions t, phandleAt pos t = 0) :
    ∃ s₁, checkNodesProps checkExplicitPhandles ⟨t, 1, false⟩ = .ok s₁ ∧ skeleton s₁.tree = skeleton t ∧
      (∀ pos i, infoAt pos t = some i → ∃ phandle, infoAt pos s₁.tree = some { i with phandle }) ∧
      (s₁.failed = false →
      ∃ s₂, checkNodesProps (fixupPhandleReferences o) s₁ = .ok s₂ ∧ skeleton s₂.tree = skeleton t ∧
        (∀ pos i₁, infoAt pos s₁.tree = some i₁ → ∃ i₂, infoAt pos s₂.tree = some i₂ ∧ Kept i₁ i₂) ∧
        (s₂.failed = false → ∀ pos k m p, IsReference t pos k m p → match getNodeByRef t m.ref with
          | some target => ∃ phandle, HasPhandle s₂.tree target phandle ∧
              HasCell s₂.tree pos k m.offset phandle.toNat
          | none => o.plugin = true ∧ HasCell s₂.tree pos k m.offset (2 ^ 32 - 1))) := by
  obtain ⟨s₁, hrun₁, hexplicit⟩ := explicit_spec hready.alive hready.marked hzero
  refine ⟨s₁, hrun₁, hexplicit.skeleton, hexplicit.infos, fun hfine => ?_⟩
  have hready₁ := hexplicit.ready hready
  have hlive := livePositions_of_skeleton hexplicit.skeleton
  obtain ⟨s₂, hrun₂, hinv, hfixed⟩ := fixup_spec hready₁ (hexplicit.invariant hfine)
  refine ⟨s₂, hrun₂, hinv.skeleton.trans hexplicit.skeleton, hinv.kept, fun hfine₂ pos k m p href => ?_⟩
  have href₁ : IsReference s₁.tree pos k m p :=
    ⟨hlive ▸ href.live, (hexplicit.propAt pos k href.live).trans href.found, href.alive, href.marker, href.type⟩
  have hcell := hfixed pos k m p href₁
  rw [Fixed, getNodeByRef_of_skeleton hexplicit.skeleton m.ref] at hcell
  cases hnode : getNodeByRef t m.ref with
  | some target =>
    rw [hnode] at hcell
    have htarget : target ∈ livePositions s₁.tree := hlive ▸ mem_livePositions_of_getNodeByRef hnode
    exact ⟨_, hasPhandle_of_fixed hready₁.alive hinv htarget hcell.1 fun k m p => hfixed target k m p, hcell.2⟩
  | none =>
    rw [hnode] at hcell
    dsimp only at hcell ⊢
    split_ifs at hcell with hplugin
    · exact ⟨hplugin, hcell⟩
    · exact absurd (hfine₂.symm.trans hcell) Bool.false_ne_true

/-- `/ { g = <&h>; h: i { }; };` -/
def referenceTree : Node :=
  .mk { proplist := [{
      name := ⟨[0x67#8], by decide⟩
      val := { val := List.replicate 4 0, markers := [⟨.refPhandle, 0, ⟨[0x68#8], by decide⟩⟩] } }] }
    [.mk { name := ⟨[0x69#8], by decide⟩, labels := [{ label := ⟨[0x68#8], by decide⟩ }] } []]

theorem livePositions_referenceTree : livePositions referenceTree = [[], [0]] := rfl

theorem isReference_referenceTree : IsReference referenceTree [] 0 ⟨.refPhandle, 0, ⟨[0x68#8], by decide⟩⟩ {
    name := ⟨[0x67#8], by decide⟩
    val := { val := List.replicate 4 0, markers := [⟨.refPhandle, 0, ⟨[0x68#8], by decide⟩⟩] } } :=
  ⟨List.mem_cons_self, rfl, rfl, List.mem_cons_self, rfl⟩

theorem ready_referenceTree : Ready ⟨false, true, false⟩ referenceTree := by
  have hvalue : ∀ pos ∈ livePositions referenceTree, ∀ k p, propAt pos k referenceTree = some p →
      p.val = { val := List.replicate 4 0, markers := [⟨.refPhandle, 0, ⟨[0x68#8], by decide⟩⟩] } := by
    rw [livePositions_referenceTree]
    rintro pos (_ | ⟨_, _ | ⟨_, ⟨⟩⟩⟩) k p hp
    · cases k with
      | zero => exact (Option.some.inj hp).symm ▸ rfl
      | succ k => cases hp
    · cases hp
  refine ⟨rfl, by rw [livePositions_referenceTree]; decide, .inr rfl, fun pos hpos k p hp => ?_⟩
  rw [hvalue pos hpos k p hp]
  refine ⟨fun m hm _ => ?_, fun m hm m' hm' _ _ hne => ?_⟩
  · rw [List.mem_singleton.mp hm]
    decide
  · exact absurd ((List.mem_singleton.mp hm).trans (List.mem_singleton.mp hm').symm) hne

theorem phandleAt_referenceTree : ∀ pos ∈ livePositions referenceTree, phandleAt pos referenceTree = 0 := by
  rw [livePositions_referenceTree]
  decide

theorem references_fixed_sample : ∃ s₁ s₂, checkNodesProps checkExplicitPhandles ⟨referenceTree, 1, false⟩ = .ok s₁ ∧
    checkNodesProps (fixupPhandleReferences ⟨false, true, false⟩) s₁ = .ok s₂ ∧
      ∃ phandle, HasPhandle s₂.tree [0] phandle ∧ HasCell s₂.tree [] 0 0 phandle.toNat := by
  have hdone : ((checkNodesProps checkExplicitPhandles ⟨referenceTree, 1, false⟩).toOption.bind fun s₁ =>
      (checkNodesProps (fixupPhandleReferences ⟨false, true, false⟩) s₁).toOption.map fun s₂ =>
        (s₁.failed, s₂.failed)) = some (false, false) := by
    decide +kernel
  obtain ⟨s₁, hrun₁, -, -, hrest⟩ := references_fixed ready_referenceTree phandleAt_referenceTree
  rw [hrun₁] at hdone
  obtain ⟨s₂, hs₂, hflags⟩ := Option.map_eq_some_iff.mp hdone
  obtain ⟨hfine₁, hfine₂⟩ := Prod.mk.inj hflags
  obtain ⟨s₂', hrun₂, -, -, hall⟩ := hrest hfine₁
  rw [hrun₂] at hs₂
  obtain rfl := Option.some.inj hs₂
  exact ⟨s₁, s₂', hrun₁, hrun₂, hall hfine₂ [] 0 _ _ isReference_referenceTree⟩

end Results

end PynqPrio.Dtc
