import PynqPrio.FdtBlobs

/-!
# Nodes are found by their handles

`fdt_node_offset_by_phandle` goes over all nodes of a blob. What it finds is the first node in the
order of the source with the handle.
-/
namespace PynqPrio.Libfdt
open Formats Dtc

section Trees

def cellNamed (name : CString) (props : List Property) : Option ℕ :=
  (valueNamed name.chars props).bind fun val => if val.length = 4 then some (ofBytes val) else none

def phandleOf (props : List Property) : ℕ :=
  ((cellNamed phandleString props).or (cellNamed linuxPhandleString props)).getD 0

mutual
def findPhandle (phandle : ℕ) : Node → Option Node
  | .mk info children =>
    if phandleOf info.proplist = phandle then some (.mk info children) else findPhandleBelow phandle children
def findPhandleBelow (phandle : ℕ) : List Node → Option Node
  | [] => none
  | c :: cs => (findPhandle phandle c).or (findPhandleBelow phandle cs)
end

end Trees

section Nodes

variable {fdt : Fdt} {n off off' : ℕ} {t : Node}

theorem getCell_of_nodeAt (h : Extent fdt n) (ht : NodeAt fdt n off t) (name : CString) :
    getCell fdt off name = .ok (cellNamed name t.proplist) := by
  have hprop := fdtGetpropNamelen_of_nodeAt (s := name.chars) h ht
  rw [getCell, fdtGetprop, cellNamed]
  split at hprop
  · next val hval =>
    obtain ⟨p, hget, hplace⟩ := hprop
    rw [hget, hval, ok_bind, Option.bind_some]
    dsimp only
    by_cases hlen : val.length = 4
    · have hlt : ofBytes val < 2 ^ 32 := by
        have hlt := ofBytes_lt val
        rwa [hlen] at hlt
      have hcell : HasAt fdt.bytes p (toBytes 4 (ofBytes val)) := by rwa [← hlen, toBytes_ofBytes]
      rw [if_neg (not_not.mpr hlen), load32_of_hasAt hlt hcell, if_pos hlen]
      rfl
    · rw [if_pos hlen, if_neg hlen]
      rfl
  · next hval =>
    rw [hprop, hval]
    rfl

theorem fdtGetPhandle_of_nodeAt (h : Extent fdt n) (ht : NodeAt fdt n off t) :
    fdtGetPhandle fdt off = .ok (phandleOf t.proplist) := by
  rw [fdtGetPhandle, getCell_of_nodeAt h ht, ok_bind, phandleOf]
  cases cellNamed phandleString t.proplist with
  | some v => rfl
  | none =>
    dsimp only
    rw [getCell_of_nodeAt h ht, ok_bind]
    cases cellNamed linuxPhandleString t.proplist <;> rfl

end Nodes

section Search

variable {fdt : Fdt} {n off off' phandle : ℕ} {t : Node} {res : ℤ}

theorem nextNodeLoop_pass (h : Extent fdt n) {tag : Tag} (htag : TagAt fdt n off tag off')
    (hcode : tag.code = fdtEndNode ∨ tag.code = fdtProp) (fuel : ℕ) :
    nextNodeLoop fdt (fuel + 1) off none = nextNodeLoop fdt fuel off' none := by
  rw [nextNodeLoop]
  simp only [fdtNextTag_of_tagAt h htag, bind, Except.bind]
  obtain hcode | hcode := hcode <;> rw [hcode] <;> rfl

/-- Where the loop comes to with the tag at `off` the next one. -/
def FindsPhandle (fdt : Fdt) (n phandle off : ℕ) (res : ℤ) : Prop :=
  ∀ outer inner, Enough n off outer → Enough n off inner →
    (nextNodeLoop fdt inner off none >>= fun x => byPhandleLoop fdt phandle outer x.1) = .ok res

theorem findsPhandle_pass (h : Extent fdt n) {tag : Tag} (htag : TagAt fdt n off tag off')
    (hcode : tag.code = fdtEndNode ∨ tag.code = fdtProp) (hrest : FindsPhandle fdt n phandle off' res) :
    FindsPhandle fdt n phandle off res := by
  intro outer inner houter hinner
  obtain ⟨k, rfl, hk⟩ := hinner.next htag
  rw [nextNodeLoop_pass h htag hcode]
  exact hrest _ _ (houter.mono htag) hk

theorem findsPhandle_end (h : Extent fdt n) (haligned : 4 ∣ off)
    (hplace : HasAt fdt.bytes (fdt.offDtStruct + off) (toBytes 4 fdtEnd)) (hlimit : off + 4 ≤ n) :
    FindsPhandle fdt n phandle off (-errNotfound) := by
  intro outer inner houter hinner
  rw [Enough] at houter hinner
  obtain ⟨k, rfl⟩ : ∃ k, inner = k + 1 := ⟨inner - 1, by omega⟩
  obtain ⟨l, rfl⟩ : ∃ l, outer = l + 1 := ⟨outer - 1, by omega⟩
  rw [nextNodeLoop]
  simp only [fdtNextTag_of_end h (.inr rfl) haligned hplace hlimit, bind, Except.bind]
  rfl

/-- The loop stops at a node with the handle, and goes on with the next tag from any other. -/
theorem findsPhandle_begin (phandle : ℕ) (h : Extent fdt n) (ht : NodeAt fdt n off t) {name : CString}
    (htag : TagAt fdt n off (.beginNode name) off') :
    (phandleOf t.proplist = phandle → FindsPhandle fdt n phandle off (off : ℕ)) ∧
      (phandleOf t.proplist ≠ phandle → ∀ res, FindsPhandle fdt n phandle off' res →
        FindsPhandle fdt n phandle off res) := by
  have hloop : ∀ outer inner, Enough n off outer → Enough n off inner → ∃ l, Enough n off' l ∧
      (nextNodeLoop fdt inner off none >>= fun x => byPhandleLoop fdt phandle outer x.1) =
        if phandleOf t.proplist = phandle then .ok (off : ℕ)
        else fdtNextNode fdt off none >>= fun x => byPhandleLoop fdt phandle l x.1 := by
    intro outer inner houter hinner
    obtain ⟨k, rfl, -⟩ := hinner.next htag
    obtain ⟨l, rfl, hl⟩ := houter.next htag
    refine ⟨l, hl, ?_⟩
    rw [nextNodeLoop_begin h htag, ok_bind]
    change byPhandleLoop fdt phandle (l + 1) off = _
    rw [byPhandleLoop, if_neg (Int.not_lt.mpr (Int.natCast_nonneg off)), fdtGetPhandle_of_nodeAt h ht, ok_bind]
    rfl
  have hstep : fdtNextNode fdt off none = nextNodeLoop fdt fdt.fuel off' none := by
    rw [fdtNextNode, if_pos (Int.natCast_nonneg off)]
    simp only [checkNodeOffset_of_tagAt h htag, bind, Except.bind]
    exact if_neg (by omega)
  refine ⟨fun heq outer inner houter hinner => ?_, fun hne res hrest outer inner houter hinner => ?_⟩
  · obtain ⟨l, -, hrun⟩ := hloop outer inner houter hinner
    rw [hrun, if_pos heq]
  · obtain ⟨l, hl, hrun⟩ := hloop outer inner houter hinner
    rw [hrun, if_neg hne, hstep]
    exact hrest l fdt.fuel hl (enough_fuel h off')

theorem findsPhandle_props (h : Extent fdt n) {props : List Property}
    (hprops : Chain fdt n off (props.map fun p => .prop p.name p.val.val) off')
    (hrest : FindsPhandle fdt n phandle off' res) : FindsPhandle fdt n phandle off res := by
  induction props generalizing off with
  | nil =>
    cases hprops
    exact hrest
  | cons p props ih =>
    cases hprops with
    | cons htag hprops => exact findsPhandle_pass h htag (.inr rfl) (ih hprops)

/-- The loop over the tags of trees stops at what is found in them, or goes on behind them. -/
def Searches (fdt : Fdt) (n phandle off off' : ℕ) (found : Option Node) : Prop :=
  match found with
  | some c => ∃ p, NodeAt fdt n p c ∧ FindsPhandle fdt n phandle off (p : ℕ)
  | none => ∀ res, FindsPhandle fdt n phandle off' res → FindsPhandle fdt n phandle off res

theorem searches_children (children : List Node)
    (hsearch : ∀ c ∈ children, ∀ off off', Chain fdt n off (tagsOf c) off' →
      Searches fdt n phandle off off' (findPhandle phandle c))
    (hchildren : Chain fdt n off (tagsOfChildren children) off') :
    Searches fdt n phandle off off' (findPhandleBelow phandle children) := by
  induction children generalizing off with
  | nil =>
    rw [tagsOfChildren] at hchildren
    cases hchildren
    exact fun _ hrest => hrest
  | cons c cs ih =>
    rw [tagsOfChildren] at hchildren
    obtain ⟨mid, hc, hcs⟩ := chain_append.mp hchildren
    have hhere := hsearch c List.mem_cons_self off mid hc
    have hrest := ih (fun c hc => hsearch c (List.mem_cons_of_mem _ hc)) hcs
    rw [findPhandleBelow]
    cases hfind : findPhandle phandle c with
    | some d =>
      rw [hfind] at hhere
      exact hhere
    | none =>
      rw [hfind] at hhere
      rw [Option.none_or]
      cases hbelow : findPhandleBelow phandle cs with
      | some d =>
        rw [hbelow] at hrest
        obtain ⟨p, hp, hfinds⟩ := hrest
        exact ⟨p, hp, hhere _ hfinds⟩
      | none =>
        rw [hbelow] at hrest
        exact fun res hres => hhere res (hrest res hres)

theorem searches_tree (phandle : ℕ) (h : Extent fdt n) (t : Node) (ht : Chain fdt n off (tagsOf t) off') :
    Searches fdt n phandle off off' (findPhandle phandle t) := by
  induction t generalizing off off' with
  | mk info children ih =>
    have hnode : NodeAt fdt n off (.mk info children) := ⟨off', ht⟩
    rw [tagsOf] at ht
    cases ht with
    | cons hbegin ht =>
      obtain ⟨mid, hprops, ht⟩ := chain_append.mp ht
      obtain ⟨mid', hchildren, ht⟩ := chain_append.mp ht
      obtain ⟨hhere, hnext⟩ := findsPhandle_begin phandle h hnode hbegin
      have hbelow := searches_children children (fun c hc off off' hchain => ih c hc hchain) hchildren
      rw [findPhandle]
      by_cases heq : phandleOf info.proplist = phandle
      · rw [if_pos heq]
        exact ⟨off, hnode, hhere heq⟩
      · rw [if_neg heq]
        cases hfind : findPhandleBelow phandle children with
        | some d =>
          rw [hfind] at hbelow
          obtain ⟨p, hp, hfinds⟩ := hbelow
          exact ⟨p, hp, hnext heq _ (findsPhandle_props h hprops hfinds)⟩
        | none =>
          rw [hfind] at hbelow
          exact fun res hres => hnext heq _ (findsPhandle_props h hprops
            (hbelow _ (findsPhandle_pass h (chain_singleton.mp ht) (.inl rfl) hres)))

theorem fdtNodeOffsetByPhandle_of_chain (h : Extent fdt n) (hheader : fdtCheckHeader fdt = 0)
    (ht : Chain fdt n 0 (tagsOf t) off) (haligned : 4 ∣ off)
    (hplace : HasAt fdt.bytes (fdt.offDtStruct + off) (toBytes 4 fdtEnd)) (hlimit : off + 4 ≤ n)
    (hzero : phandle ≠ 0) (hnone : phandle ≠ 2 ^ 32 - 1) :
    match findPhandle phandle t with
    | some c => ∃ p, fdtNodeOffsetByPhandle fdt phandle = .ok (p : ℕ) ∧ NodeAt fdt n p c
    | none => fdtNodeOffsetByPhandle fdt phandle = .ok (-errNotfound) := by
  have hstart : ∀ res, FindsPhandle fdt n phandle 0 res → fdtNodeOffsetByPhandle fdt phandle = .ok res := by
    intro res hres
    have hstep : fdtNextNode fdt (-1) none = nextNodeLoop fdt fdt.fuel (0 : ℕ) none := rfl
    rw [fdtNodeOffsetByPhandle, if_neg (not_or.mpr ⟨hzero, hnone⟩), if_neg (not_not.mpr hheader), hstep]
    exact hres _ _ (enough_fuel h 0) (enough_fuel h 0)
  have hsearch := searches_tree phandle h t ht
  cases hfound : findPhandle phandle t with
  | some c =>
    rw [hfound] at hsearch
    obtain ⟨p, hp, hfinds⟩ := hsearch
    exact ⟨p, hstart _ hfinds, hp⟩
  | none =>
    rw [hfound] at hsearch
    exact hstart _ (hsearch _ (findsPhandle_end h haligned hplace hlimit))

end Search

section Blobs

variable {o : Options} {dti : DtInfo} {fdt : Fdt} {blob rest : List Byte} {version phandle : ℕ}

/-- What is written in a new version is found by its handle. -/
theorem blob_by_phandle (hblob : dtToBlob o dti.filled version = some blob) (hbytes : fdt.bytes = blob ++ rest)
    (hversion : 16 ≤ version) (hroot : dti.dt.deleted = false) (hsize : blob.length < 2 ^ 31)
    (hzero : phandle ≠ 0) (hnone : phandle ≠ 2 ^ 32 - 1) :
    match findPhandle phandle (visible dti.dt) with
    | some c => ∃ n p, fdtNodeOffsetByPhandle fdt phandle = .ok (p : ℕ) ∧ NodeAt fdt n p c
    | none => fdtNodeOffsetByPhandle fdt phandle = .ok (-errNotfound) := by
  obtain ⟨vi, hfind, rfl⟩ := Option.map_eq_some_iff.mp hblob
  obtain ⟨hvi, rfl⟩ := findVersion_spec hfind
  have hfilled : dti.filled.dt.deleted = false := by rw [DtInfo.filled, deleted_fillFullpaths, hroot]
  obtain ⟨hheader, hextent, off', hchain, haligned, hplace, hlimit⟩ :=
    chain_assembleBlob hbytes hvi hversion hfilled hsize
  have hvisible : visible dti.filled.dt = visible dti.dt := visible_fillFullpaths dti.dt .empty
  rw [hvisible] at hchain
  have hfound := fdtNodeOffsetByPhandle_of_chain hextent hheader hchain haligned hplace hlimit hzero hnone
  split at hfound
  · obtain ⟨p, hp, hnode⟩ := hfound
    exact ⟨_, p, hp, hnode⟩
  · exact hfound

/-- `/ { o { phandle = <5>; }; };` -/
def handleTree : DtInfo where
  dtsflags := dtsfV1
  reservelist := []
  bootCpuidPhys := 0
  dt := .mk {} [.mk {
    name := ⟨[0x6F#8], by decide⟩
    proplist := [{ name := phandleString, val := { val := [0, 0, 0, 5] } }] } []]

theorem blob_by_phandle_sample : ∃ blob, ∃ h : 40 ≤ blob.length, dtToBlob {} handleTree.filled 17 = some blob ∧
    ∃ n p c, fdtNodeOffsetByPhandle ⟨blob, h⟩ 5 = .ok (p : ℕ) ∧ NodeAt ⟨blob, h⟩ n p c ∧
      (visible handleTree.dt).children = [c] := by
  have hblob : ∃ blob, dtToBlob {} handleTree.filled 17 = some blob ∧ 40 ≤ blob.length ∧ blob.length < 2 ^ 31 :=
    ⟨_, rfl, by decide +kernel, by decide +kernel⟩
  obtain ⟨blob, hblob, hheader, hsize⟩ := hblob
  have hbytes : Fdt.bytes ⟨blob, hheader⟩ = blob ++ [] := (List.append_nil blob).symm
  have hzero : 5 ≠ 0 := by decide
  obtain ⟨n, p, hfound, hnode⟩ := blob_by_phandle hblob hbytes (by decide) rfl hsize hzero (by decide)
  exact ⟨blob, hheader, hblob, n, p, _, hfound, hnode, rfl⟩

end Blobs

end PynqPrio.Libfdt
