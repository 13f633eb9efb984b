import PynqPrio.DtcExplicitPhandles
import PynqPrio.FdtPhandles

/-!
# References are followed in a blob

What `dtc` puts into a cell for a reference leads `libfdt` to the node that the reference was
resolved to: after the checks every node has a handle of its own or none.
-/
namespace PynqPrio.Libfdt
open Formats Stores Dtc

section Trees

variable {t : Node} {pos : List ℕ} {phandle : ℕ}

def subtreeAt : List ℕ → Node → Option Node
  | [], t => some t
  | i :: pos, t => t.children[i]?.bind (subtreeAt pos)

theorem infoAt_eq_map (pos : List ℕ) (t : Node) : infoAt pos t = (subtreeAt pos t).map Node.info := by
  induction pos generalizing t with
  | nil => rfl
  | cons i pos ih =>
    rw [infoAt, subtreeAt]
    cases t.children[i]? with
    | none => rfl
    | some c => exact ih c

/-- What is found in the visible tree stands at a live position. -/
def Located (phandle : ℕ) (t : Node) (l : List (List ℕ)) (found : Option Node) : Prop :=
  match found with
  | some c => ∃ pos ∈ l, ∃ d, subtreeAt pos t = some d ∧ c = visible d ∧ phandleOf c.proplist = phandle
  | none => ∀ pos ∈ l, ∀ d, subtreeAt pos t = some d → phandleOf (visible d).proplist ≠ phandle

theorem located (phandle : ℕ) (t : Node) :
    Located phandle t (livePositions t) (findPhandle phandle (visible t)) := by
  induction t with
  | mk info children ih =>
    have hbelow : ∀ pre cs, children = pre ++ cs → Located phandle (.mk info children)
        (livePositionsBelow cs pre.length) (findPhandleBelow phandle (visibleChildren cs)) := by
      intro pre cs
      induction cs generalizing pre with
      | nil => exact fun _ _ hpos => absurd hpos List.not_mem_nil
      | cons c cs ihs =>
        intro hsplit
        have hc : children[pre.length]? = some c := by simp [hsplit]
        have hrest := ihs (pre ++ [c]) (by rw [hsplit, List.append_assoc, List.singleton_append])
        rw [List.length_append, List.length_singleton] at hrest
        rw [livePositionsBelow, visibleChildren]
        cases hdel : c.deleted with
        | true => exact hrest
        | false =>
          have hhere := ih c (hsplit ▸ List.mem_append_right pre List.mem_cons_self)
          have hsub : ∀ pos, subtreeAt (pre.length :: pos) (.mk info children) = subtreeAt pos c := by
            intro pos
            rw [subtreeAt, Node.children_mk, hc, Option.bind_some]
          rw [if_neg Bool.false_ne_true, if_neg Bool.false_ne_true, findPhandleBelow]
          cases hfind : findPhandle phandle (visible c) with
          | some e =>
            rw [hfind] at hhere
            obtain ⟨pos, hpos, d, hd, heq, hphandle⟩ := hhere
            exact ⟨pre.length :: pos, List.mem_append_left _ (List.mem_map_of_mem hpos), d, (hsub pos).trans hd, heq,
              hphandle⟩
          | none =>
            rw [hfind] at hhere
            rw [Option.none_or]
            cases hmore : findPhandleBelow phandle (visibleChildren cs) with
            | some e =>
              rw [hmore] at hrest
              obtain ⟨pos, hpos, hd⟩ := hrest
              exact ⟨pos, List.mem_append_right _ hpos, hd⟩
            | none =>
              rw [hmore] at hrest
              intro pos hpos d hd
              obtain hpos | hpos := List.mem_append.mp hpos
              · obtain ⟨pos', hpos', rfl⟩ := List.mem_map.mp hpos
                exact hhere pos' hpos' d ((hsub pos').symm.trans hd)
              · exact hrest pos hpos d hd
    have hchildren := hbelow [] children rfl
    rw [visible, buildNode, findPhandle, livePositions]
    by_cases heq : phandleOf (visibleProps info.proplist) = phandle
    · rw [if_pos heq]
      exact ⟨[], List.mem_cons_self, _, rfl, rfl, heq⟩
    · rw [if_neg heq]
      cases hfind : findPhandleBelow phandle (visibleChildren children) with
      | some e =>
        rw [hfind] at hchildren
        obtain ⟨pos, hpos, hd⟩ := hchildren
        exact ⟨pos, List.mem_cons_of_mem _ hpos, hd⟩
      | none =>
        rw [hfind] at hchildren
        intro pos hpos d hd
        obtain rfl | hpos := List.mem_cons.mp hpos
        · obtain rfl := Option.some.inj hd
          exact heq
        · exact hchildren pos hpos d hd

theorem valueNamed_visibleProps (name : CString) (props : List Property) :
    valueNamed name.chars (visibleProps props) = (propOf name props).map (·.val.val) := by
  induction props with
  | nil => rfl
  | cons p props ih =>
    rw [visibleProps_cons, propOf, live, List.find?_cons]
    cases hdel : p.deleted with
    | true => exact ih
    | false =>
      rw [if_neg Bool.false_ne_true, valueNamed, List.find?_cons]
      by_cases hname : p.name = name
      · simp [hname, buildProperty]
      · have hchars : p.name.chars ≠ name.chars := fun h => hname (CString.ext h)
        have hdiffer : decide (p.name.chars = name.chars) = false := decide_eq_false hchars
        have hkey : (!false && decide (p.name = name)) = false := decide_eq_false hname
        rw [buildProperty]
        dsimp only
        rw [hdiffer, hkey]
        exact ih

end Trees

section References

variable {t t₀ d : Node} {s s₁ s₂ : CheckState} {o : CheckOptions} {pos target : List ℕ} {k : ℕ} {m : Marker}
  {p : Property}

/-- After the checks a node reads as the handle that it has. -/
theorem phandleOf_of_fixed (h : Invariant t₀ s) (hpos : pos ∈ livePositions t₀)
    (hfixed : ∀ k m p, IsReference t₀ pos k m p → Fixed o t₀ pos k m s) (hd : subtreeAt pos s.tree = some d) :
    phandleOf (visible d).proplist = (phandleAt pos s.tree).toNat := by
  have hinfo : infoAt pos s.tree = some d.info := by rw [infoAt_eq_map, hd, Option.map_some]
  have hborne := h.borne pos hpos d.info hinfo
  have hprops : (visible d).proplist = visibleProps d.info.proplist := by
    cases d
    rfl
  have hlt : d.info.phandle.toNat < 256 ^ 4 := d.info.phandle.isLt
  have hcell : ∀ name, Bears t₀ pos d.info name → cellNamed name (visible d).proplist =
      (propOf name d.info.proplist).map fun _ => d.info.phandle.toNat := by
    intro name hbears
    rw [cellNamed, hprops, valueNamed_visibleProps]
    cases hp : propOf name d.info.proplist with
    | none => rfl
    | some q =>
      have hval := value_of_bears h hpos hinfo hbears hfixed hp
      rw [Option.map_some, Option.bind_some, hval, if_pos (length_toBytes 4 _), ofBytes_toBytes_of_lt hlt,
        Option.map_some]
  rw [phandleOf, hcell _ hborne.epapr, hcell _ hborne.legacy, phandleAt_eq hinfo]
  have hsome := hborne.some
  cases hepapr : propOf phandleString d.info.proplist with
  | some q => rfl
  | none =>
    cases hlegacy : propOf linuxPhandleString d.info.proplist with
    | some q => rfl
    | none =>
      have hzero : d.info.phandle = 0 := by
        by_contra hne
        rw [hepapr, hlegacy] at hsome
        exact (hsome hne).elim Bool.false_ne_true Bool.false_ne_true
      rw [hzero]
      rfl

variable {opts : Options} {dti : DtInfo} {fdt : Fdt} {blob rest : List Byte} {version : ℕ}

/-- What stands in the blob for a reference is the handle by which the node is found that the reference
was resolved to. -/
theorem reference_followed (hready : Ready o t) (hzero : ∀ pos ∈ livePositions t, phandleAt pos t = 0)
    (hrun₁ : checkNodesProps checkExplicitPhandles ⟨t, 1, false⟩ = .ok s₁) (hfine : s₁.failed = false)
    (hrun₂ : checkNodesProps (fixupPhandleReferences o) s₁ = .ok s₂) (hdt : dti.dt = s₂.tree)
    (hblob : dtToBlob opts dti.filled version = some blob) (hbytes : fdt.bytes = blob ++ rest)
    (hversion : 16 ≤ version) (hsize : blob.length < 2 ^ 31) (href : IsReference t pos k m p)
    (hnode : getNodeByRef t m.ref = some target) :
    ∃ phandle n off d, HasCell dti.dt pos k m.offset phandle ∧
      fdtNodeOffsetByPhandle fdt phandle = .ok (off : ℕ) ∧ subtreeAt target dti.dt = some d ∧
        NodeAt fdt n off (visible d) := by
  obtain ⟨s₁', hrun₁', hexplicit⟩ := explicit_spec hready.alive hready.marked hzero
  obtain rfl := Except.ok.inj (hrun₁.symm.trans hrun₁')
  have hready₁ := hexplicit.ready hready
  have hlive := livePositions_of_skeleton hexplicit.skeleton
  obtain ⟨s₂', hrun₂', hinv, hfixed⟩ := fixup_spec hready₁ (hexplicit.invariant hfine)
  obtain rfl := Except.ok.inj (hrun₂.symm.trans hrun₂')
  have hcell := hfixed pos k m p ⟨hlive ▸ href.live, (hexplicit.propAt pos k href.live).trans href.found, href.alive,
    href.marker, href.type⟩
  rw [Fixed, getNodeByRef_of_skeleton hexplicit.skeleton m.ref, hnode] at hcell
  obtain ⟨hne, hcell⟩ := hcell
  have htarget : target ∈ livePositions s₁.tree := hlive ▸ mem_livePositions_of_getNodeByRef hnode
  have htarget' : target ∈ livePositions s₂.tree := hinv.live ▸ htarget
  obtain ⟨i, hi⟩ := exists_infoAt htarget'
  rw [infoAt_eq_map] at hi
  obtain ⟨d, hd, -⟩ := Option.map_eq_some_iff.mp hi
  have hreads : ∀ pos ∈ livePositions s₂.tree, ∀ d, subtreeAt pos s₂.tree = some d →
      phandleOf (visible d).proplist = (phandleAt pos s₂.tree).toNat := fun pos hpos d hd =>
    phandleOf_of_fixed hinv (hinv.live ▸ hpos) (fun k m p => hfixed pos k m p) hd
  -- the first node with the handle is the only one
  have hfind : findPhandle (phandleAt target s₂.tree).toNat (visible s₂.tree) = some (visible d) := by
    have hlocated := located (phandleAt target s₂.tree).toNat s₂.tree
    cases hfound : findPhandle (phandleAt target s₂.tree).toNat (visible s₂.tree) with
    | none =>
      rw [hfound] at hlocated
      exact absurd (hreads target htarget' d hd) (hlocated target htarget' d hd)
    | some c =>
      rw [hfound] at hlocated
      obtain ⟨pos', hpos', d', hd', rfl, hphandle⟩ := hlocated
      have hsame := BitVec.eq_of_toNat_eq ((hreads pos' hpos' d' hd').symm.trans hphandle)
      obtain rfl := hinv.distinct.unique pos' hpos' target htarget' hsame (hsame ▸ hne)
      rw [Option.some.inj (hd'.symm.trans hd)]
  have hroot : dti.dt.deleted = false := by
    rw [hdt, ← deleted_skeleton, hinv.skeleton, deleted_skeleton, hready₁.alive]
  have hhandle : (phandleAt target s₂.tree).toNat ≠ 0 := fun h => hne (BitVec.eq_of_toNat_eq h)
  have hvalid : (phandleAt target s₂.tree).toNat ≠ 2 ^ 32 - 1 := fun h =>
    hinv.distinct.valid target htarget' (BitVec.eq_of_toNat_eq h)
  obtain ⟨vi, hversionOf, rfl⟩ := Option.map_eq_some_iff.mp hblob
  obtain ⟨hvi, rfl⟩ := findVersion_spec hversionOf
  have hfilled : dti.filled.dt.deleted = false := by rw [DtInfo.filled, deleted_fillFullpaths, hroot]
  obtain ⟨hheader, hextent, off', hchain, haligned, hplace, hlimit⟩ :=
    chain_assembleBlob hbytes hvi hversion hfilled hsize
  have hvisible : visible dti.filled.dt = visible s₂.tree := (visible_fillFullpaths dti.dt .empty).trans (hdt ▸ rfl)
  rw [hvisible] at hchain
  have hlookup := fdtNodeOffsetByPhandle_of_chain hextent hheader hchain haligned hplace hlimit hhandle hvalid
  rw [hfind] at hlookup
  obtain ⟨q, hq, hat⟩ := hlookup
  exact ⟨_, _, q, d, hdt ▸ hcell, hq, hdt ▸ hd, hat⟩

theorem reference_followed_sample : ∃ s₁ s₂ blob, ∃ h : 40 ≤ blob.length,
    checkNodesProps checkExplicitPhandles ⟨referenceTree, 1, false⟩ = .ok s₁ ∧
      checkNodesProps (fixupPhandleReferences ⟨false, true, false⟩) s₁ = .ok s₂ ∧
      dtToBlob {} (DtInfo.filled ⟨dtsfV1, [], 0, s₂.tree⟩) 17 = some blob ∧
      ∃ phandle n off d, HasCell s₂.tree [] 0 0 phandle ∧
        fdtNodeOffsetByPhandle ⟨blob, h⟩ phandle = .ok (off : ℕ) ∧ subtreeAt [0] s₂.tree = some d ∧
          NodeAt ⟨blob, h⟩ n off (visible d) := by
  have hdone : ((checkNodesProps checkExplicitPhandles ⟨referenceTree, 1, false⟩).toOption.bind fun s₁ =>
      (checkNodesProps (fixupPhandleReferences ⟨false, true, false⟩) s₁).toOption.bind fun s₂ =>
        (dtToBlob {} (DtInfo.filled ⟨dtsfV1, [], 0, s₂.tree⟩) 17).map fun blob =>
          (s₁.failed, decide (40 ≤ blob.length ∧ blob.length < 2 ^ 31))) = some (false, true) := by
    decide +kernel
  obtain ⟨s₁, hs₁, hdone⟩ := Option.bind_eq_some_iff.mp hdone
  obtain ⟨s₂, hs₂, hdone⟩ := Option.bind_eq_some_iff.mp hdone
  obtain ⟨blob, hblob, hflags⟩ := Option.map_eq_some_iff.mp hdone
  obtain ⟨hfine, hlength⟩ := Prod.mk.inj hflags
  obtain ⟨hheader, hsize⟩ := of_decide_eq_true hlength
  have hok : ∀ {x : Except CheckFault CheckState} {s}, x.toOption = some s → x = .ok s := by
    rintro (_ | s') s hs
    · cases hs
    · exact congrArg Except.ok (Option.some.inj hs)
  have hbytes : Fdt.bytes ⟨blob, hheader⟩ = blob ++ [] := (List.append_nil blob).symm
  exact ⟨s₁, s₂, blob, hheader, hok hs₁, hok hs₂, hblob, reference_followed ready_referenceTree
    phandleAt_referenceTree (hok hs₁) hfine (hok hs₂) rfl hblob hbytes (by decide) hsize isReference_referenceTree rfl⟩

end References

end PynqPrio.Libfdt
