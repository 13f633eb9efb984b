import PynqPrio.DtcSafety
import PynqPrio.FdtLookup

/-!
# What `dtc` writes is found by `libfdt`

The new versions have the tags that the reader in place knows. By induction on the tree a blob has
the tags of what is visible in it, so a lookup by path and name gives what the source says.
-/
namespace PynqPrio.Libfdt
open Formats Dtc

section Tags

variable {fdt : Fdt} {l l' : ℕ} {out s : Bufs} {vi : VersionInfo} {name : CString}

theorem tagAt_word {v : ℕ} (h : Holds fdt.bytes ⟨fdt.offDtStruct, l⟩ ⟨fdt.offDtStrings, l'⟩ out)
    (hout : s.cell v ≤ out) : HasAt fdt.bytes (fdt.offDtStruct + s.dtbuf.length) (toBytes 4 v) ∧
      s.dtbuf.length + 4 ≤ out.dtbuf.length := by
  obtain ⟨hplace, -⟩ := h.hasAt s (toBytes 4 v) hout
  have hle := hout.1.length_le
  rw [Bufs.length_cell] at hle
  exact ⟨hplace, hle⟩

theorem tagAt_beginNode (h : Holds fdt.bytes ⟨fdt.offDtStruct, l⟩ ⟨fdt.offDtStrings, l'⟩ out)
    (hs : s.Aligned) (hout : ((s.cell Dtc.fdtBeginNode).string name 0).align 4 ≤ out) :
    TagAt fdt out.dtbuf.length s.dtbuf.length (.beginNode name)
      (((s.cell Dtc.fdtBeginNode).string name 0).align 4).dtbuf.length := by
  have hsame : s.data (toBytes 4 fdtBeginNode ++ name.bytes) = (s.cell Dtc.fdtBeginNode).string name 0 := by
    simp [Bufs.data, Bufs.string, Bufs.cell, dataAppendData, dataAppendCell, CString.bytes]
    rfl
  have hplace := (h.hasAt s _ (hsame.le.trans ((Bufs.le_align _ 4).trans hout))).1
  have hnext : (((s.cell Dtc.fdtBeginNode).string name 0).align 4).dtbuf.length =
      align (s.dtbuf.length + 4 + name.bytes.length) 4 := by
    rw [Bufs.length_align _ (by decide), ← hsame, Bufs.length_data, List.length_append, length_toBytes,
      Nat.add_assoc]
  exact .beginNode hs hplace hnext hout.1.length_le

theorem tagAt_prop {val : List Byte} (h : Holds fdt.bytes ⟨fdt.offDtStruct, l⟩ ⟨fdt.offDtStrings, l'⟩ out)
    (hvi : vi.ftfVaralign = false) (hs : s.Aligned)
    (hout : flattenProp vi name val.length (·.data val) s ≤ out) :
    TagAt fdt out.dtbuf.length s.dtbuf.length (.prop name val)
      (flattenProp vi name val.length (·.data val) s).dtbuf.length := by
  have hplain : flattenProp vi name val.length (·.data val) s =
      ((propHead name val.length s).data val).align 4 := by
    rw [flattenProp_eq, Bufs.varalign, hvi, Bool.false_and, if_neg Bool.false_ne_true]
  rw [hplain] at hout ⊢
  have hdata := (Bufs.le_align _ 4).trans hout
  obtain ⟨hoff, -⟩ := gives_propName (m := 0) h ((Bufs.le_data _ val).trans hdata)
  have hsame : ({ s with strbuf := (stringtableInsert s.strbuf name).2 } : Bufs).data (toBytes 4 fdtProp ++
      (toBytes 4 val.length ++ (toBytes 4 (stringtableInsert s.strbuf name).1 ++ val))) =
        (propHead name val.length s).data val := by
    simp [Bufs.data, propHead, Bufs.cell, dataAppendData, dataAppendCell]
    rfl
  have hplace := (h.hasAt _ _ (hsame.le.trans hdata)).1
  obtain ⟨-, hname⟩ := stringtableInsert_spec s.strbuf name
  have hname := h.str.trans ((HasAt.of_prefix (hasAt_zero_self out.strbuf) hdata.2).trans hname)
  rw [Nat.zero_add] at hname
  have hnext : (((propHead name val.length s).data val).align 4).dtbuf.length =
      align (s.dtbuf.length + 12 + val.length) 4 := by
    rw [Bufs.length_align _ (by decide), Bufs.length_data, propHead, Bufs.length_cell, Bufs.length_cell,
      Bufs.length_cell]
  exact .prop hs hplace hname hoff hnext hout.1.length_le

end Tags

section Trees

variable {fdt : Fdt} {l l' : ℕ} {out s : Bufs} {vi : VersionInfo}

theorem chain_flattenProps (h : Holds fdt.bytes ⟨fdt.offDtStruct, l⟩ ⟨fdt.offDtStrings, l'⟩ out)
    (hvi : vi.ftfVaralign = false) (props : List Property) (hs : s.Aligned)
    (hout : flattenProps vi props s ≤ out) : Chain fdt out.dtbuf.length s.dtbuf.length
      ((visibleProps props).map fun p => .prop p.name p.val.val) (flattenProps vi props s).dtbuf.length := by
  induction props generalizing s with
  | nil => exact .nil _
  | cons p props ih =>
    rw [flattenProps] at hout ⊢
    rw [visibleProps_cons]
    split at hout
    · next hdel =>
      rw [if_pos hdel, if_pos hdel]
      exact ih hs hout
    · next hdel =>
      rw [if_neg hdel, if_neg hdel]
      have htag := tagAt_prop h hvi hs ((le_flattenProps props _).trans hout)
      exact .cons htag (ih (aligned_flattenProp _ s) hout)

/-- In the new versions a node has its name and no property that is not its own. -/
def Plain (vi : VersionInfo) : Prop :=
  vi.ftfVaralign = false ∧ vi.ftfNameprops = false ∧ vi.ftfFullpath = false

theorem chain_flattenChildren (children : List Node)
    (ih : ∀ c ∈ children, c.deleted = false → ∀ {s : Bufs}, s.Aligned → flattenTree vi c s ≤ out →
      Chain fdt out.dtbuf.length s.dtbuf.length (tagsOf (visible c)) (flattenTree vi c s).dtbuf.length)
    (hs : s.Aligned) (hout : flattenChildren vi children s ≤ out) :
    Chain fdt out.dtbuf.length s.dtbuf.length (tagsOfChildren (visibleChildren children))
      (flattenChildren vi children s).dtbuf.length := by
  induction children generalizing s with
  | nil => exact .nil _
  | cons c cs ihcs =>
    have htail := fun {s} => ihcs (fun d hd => ih d (List.mem_cons_of_mem c hd)) (s := s)
    rw [flattenChildren] at hout ⊢
    rw [visibleChildren]
    split at hout
    · next hdel =>
      rw [if_pos hdel, if_pos hdel]
      exact htail hs hout
    · next hdel =>
      rw [if_neg hdel, if_neg hdel]
      obtain ⟨-, haligned⟩ := flattenTree_grows vi c s hs
      have hle := (flattenChildren_grows vi cs (fun d _ => flattenTree_grows vi d) haligned).1
      have hc := ih c List.mem_cons_self (Bool.eq_false_of_not_eq_true hdel) hs (hle.trans hout)
      exact hc.append (htail haligned hout)

/-- The tags of what is visible stand where the tree is written. -/
theorem chain_flattenTree (h : Holds fdt.bytes ⟨fdt.offDtStruct, l⟩ ⟨fdt.offDtStrings, l'⟩ out)
    (hvi : Plain vi) (t : Node) (hdel : t.deleted = false) (hs : s.Aligned) (hout : flattenTree vi t s ≤ out) :
    Chain fdt out.dtbuf.length s.dtbuf.length (tagsOf (visible t)) (flattenTree vi t s).dtbuf.length := by
  induction t generalizing s with
  | mk info children ih =>
    obtain ⟨hvaralign, hnameprops, hfullpath⟩ := hvi
    have hhead : flattenHead vi info s =
        flattenProps vi info.proplist (((s.cell Dtc.fdtBeginNode).string info.name 0).align 4) := by
      rw [flattenHead, flattenAllProps, flattenName, flattenBegin, hnameprops, Bool.false_and,
        if_neg Bool.false_ne_true, hfullpath, if_neg Bool.false_ne_true]
    rw [flattenTree_eq info children hdel] at hout ⊢
    have hchildren := (Bufs.le_cell _ _).trans hout
    have hgrow := flattenChildren_grows vi children (fun c _ => flattenTree_grows vi c)
      (aligned_flattenHead vi info s)
    have hprops := hgrow.1.trans hchildren
    rw [hhead] at hprops
    have hbegin := tagAt_beginNode h hs ((le_flattenProps info.proplist _).trans hprops)
    have hbody := chain_flattenProps h hvaralign info.proplist (aligned_align _) hprops
    have hbelow := chain_flattenChildren children (fun c hc hcdel _ => ih c hc hcdel) (aligned_flattenHead vi info s)
      hchildren
    obtain ⟨hend, hlimit⟩ := tagAt_word h hout
    rw [hhead] at hbelow hend hlimit hgrow ⊢
    rw [visible, buildNode, tagsOf, Bufs.length_cell]
    exact .cons hbegin (hbody.append (hbelow.append (chain_singleton.mpr (.endNode hgrow.2 hend hlimit))))

theorem visible_fillFullpaths (t : Node) (pre : CString) : visible (fillFullpaths t pre) = visible t := by
  induction t generalizing pre with
  | mk info children ih =>
    have hchildren : ∀ pre, visibleChildren (fillChildren children pre) = visibleChildren children := by
      intro pre
      induction children with
      | nil => rfl
      | cons c cs ihcs =>
        rw [fillChildren, visibleChildren, visibleChildren, ihcs fun d hd => ih d (List.mem_cons_of_mem c hd)]
        cases hdel : c.deleted with
        | true => rw [if_pos rfl, hdel]
        | false => rw [if_neg Bool.false_ne_true, deleted_fillFullpaths, hdel, ih c List.mem_cons_self]
    rw [fillFullpaths_mk, visible, visible, hchildren]
    rfl

end Trees

section Blobs

variable {o : Options} {dti : DtInfo} {vi : VersionInfo} {blob rest : List Byte} {fdt : Fdt}

theorem plain_of_mem (hvi : vi ∈ versionTable) (hversion : 16 ≤ vi.version) :
    Plain vi ∧ vi.version ≤ 17 ∧ vi.lastCompVersion = 16 := by
  rw [versionTable] at hvi
  simp only [List.mem_cons, List.not_mem_nil, or_false] at hvi
  obtain rfl | rfl | rfl | rfl | rfl := hvi
  all_goals revert hversion; unfold Plain; decide

/-- A word of the header that the version has. -/
theorem word_assembleBlob (hbytes : fdt.bytes = assembleBlob o dti vi ++ rest) {i w : ℕ}
    (h : (blobHeader o dti vi).words[i]? = some w) (hi : 4 * i + 4 ≤ vi.hdrSize) (hw : w < 256 ^ 4) :
    fdt.word i = w := by
  rw [Fdt.word, hbytes, ((hasAt_headerWord h hi).append rest).slice (length_toBytes 4 w),
    ofBytes_toBytes_of_lt hw]

/-- The tags of the visible tree, and the tag that ends the structure block behind them. -/
theorem chain_assembleBlob (hbytes : fdt.bytes = assembleBlob o dti vi ++ rest) (hvi : vi ∈ versionTable)
    (hversion : 16 ≤ vi.version) (hroot : dti.dt.deleted = false)
    (hsize : (assembleBlob o dti vi).length < 2 ^ 31) :
    fdtCheckHeader fdt = 0 ∧ Extent fdt (blobBufs dti vi).dtbuf.length ∧
      ∃ off', Chain fdt (blobBufs dti vi).dtbuf.length 0 (tagsOf (visible dti.dt)) off' ∧ 4 ∣ off' ∧
        HasAt fdt.bytes (fdt.offDtStruct + off') (toBytes 4 fdtEnd) ∧
        off' + 4 ≤ (blobBufs dti vi).dtbuf.length := by
  have hwell := wellFormed_of_mem hvi
  obtain ⟨hplain, hnew, hcomp⟩ := plain_of_mem hvi hversion
  obtain ⟨-, hhdr⟩ := hwell.strtabsize (by omega)
  obtain ⟨-, hdt, hstr⟩ := hasAt_parts o dti hwell
  have hdtLe := hdt.le
  have hstrLe := hstr.le
  have htotalEq := length_assembleBlob o dti hwell
  have hmagic : fdt.magic = fdtMagic := word_assembleBlob hbytes (i := 0) rfl (by omega) (by decide)
  have htotal : fdt.totalsize = (assembleBlob o dti vi).length := by
    rw [htotalEq]
    exact word_assembleBlob hbytes (i := 1) rfl (by omega) (by omega)
  have hstruct : fdt.offDtStruct = (blobHeader o dti vi).offDtStruct :=
    word_assembleBlob hbytes (i := 2) rfl (by omega) (by omega)
  have hstrings : fdt.offDtStrings = (blobHeader o dti vi).offDtStrings :=
    word_assembleBlob hbytes (i := 3) rfl (by omega) (by omega)
  have hversionWord : fdt.version = vi.version :=
    word_assembleBlob hbytes (i := 5) rfl (by omega) hwell.version
  have hcompWord : fdt.lastCompVersion = vi.lastCompVersion :=
    word_assembleBlob hbytes (i := 6) rfl (by omega) (by omega)
  have hextent : Extent fdt (blobBufs dti vi).dtbuf.length := by
    refine ⟨by omega, fun h => ?_, ?_, by omega⟩
    · obtain ⟨hflag, hhdr⟩ := hwell.structsize (by omega)
      have hword : fdt.sizeDtStruct = (blobBufs dti vi).dtbuf.length := by
        refine word_assembleBlob hbytes (i := 9) ?_ (by omega) (by omega)
        simp [FdtHeader.words, blobHeader, plainHeader, makeFdtHeader, hflag]
      exact hword.ge
    · rw [htotal, hbytes, List.length_append]
      exact Nat.le_add_right _ _
  have hheader : fdtCheckHeader fdt = 0 := by
    rw [fdtCheckHeader, if_pos hmagic, firstSupportedVersion, lastSupportedVersion, if_neg (by omega),
      if_neg (by omega)]
  have hholds : Holds fdt.bytes ⟨fdt.offDtStruct, (assembleBlob o dti vi).length⟩
      ⟨fdt.offDtStrings, (assembleBlob o dti vi).length⟩ (blobBufs dti vi) := by
    rw [hbytes, hstruct, hstrings]
    exact ⟨hdt.append rest, hdtLe, hstr.append rest, hstrLe, by omega, by omega⟩
  have htree : flattenTree vi dti.dt {} ≤ blobBufs dti vi := Bufs.le_cell _ _
  have hempty : ({} : Bufs).Aligned := Nat.dvd_zero 4
  have haligned := (flattenTree_grows vi dti.dt {} hempty).2
  exact ⟨hheader, hextent, _, chain_flattenTree hholds hplain dti.dt hroot hempty htree, haligned,
    tagAt_word hholds le_rfl⟩

/-- What is written in a new version is found by its path and name, whatever stands behind the blob
in the memory. -/
theorem blob_lookup {version fuel : ℕ} {path name : CString} (hblob : dtToBlob o dti.filled version = some blob)
    (hbytes : fdt.bytes = blob ++ rest) (hversion : 16 ≤ version) (hroot : dti.dt.deleted = false)
    (hsize : blob.length < 2 ^ 31) (habsolute : path.chars.head? = some 0x2F#8)
    (hpath : path.chars.length < 2 ^ 31) : readProp fdt (fuel + 1) path name =
      .ok ((valueAt path name (visible dti.dt)).elim (.error (-errNotfound)) .ok) := by
  obtain ⟨vi, hfind, rfl⟩ := Option.map_eq_some_iff.mp hblob
  obtain ⟨hvi, rfl⟩ := findVersion_spec hfind
  have hfilled : dti.filled.dt.deleted = false := by rw [DtInfo.filled, deleted_fillFullpaths, hroot]
  obtain ⟨hheader, hextent, off', hchain, -⟩ := chain_assembleBlob hbytes hvi hversion hfilled hsize
  rw [← visible_fillFullpaths dti.dt .empty]
  exact readProp_of_nodeAt hextent hheader habsolute hpath ⟨off', hchain⟩

/-- `/ { n@2 { q = [01 02 03]; }; }` -/
def unitTree : DtInfo :=
  { sampleTree with
    dt := .mk {} [.mk { name := ⟨[0x6E#8, 0x40#8, 0x32#8], by decide⟩
                        proplist := [{ name := ⟨[0x71#8], by decide⟩, val := { val := [1#8, 2#8, 3#8] } }] } []] }

/-- The path `/n` names the child without its unit address. -/
theorem blob_lookup_sample : ∃ blob, ∃ h : 40 ≤ blob.length, dtToBlob {} unitTree.filled 17 = some blob ∧
    readProp ⟨blob, h⟩ 1 ⟨[0x2F#8, 0x6E#8], by decide⟩ ⟨[0x71#8], by decide⟩ = .ok (.ok [1#8, 2#8, 3#8]) ∧
      readProp ⟨blob, h⟩ 1 ⟨[0x2F#8, 0x6E#8], by decide⟩ phandleString = .ok (.error (-errNotfound)) := by
  have hblob : ∃ blob, dtToBlob {} unitTree.filled 17 = some blob ∧ 40 ≤ blob.length ∧ blob.length < 2 ^ 31 :=
    ⟨_, rfl, by decide +kernel, by decide +kernel⟩
  obtain ⟨blob, hblob, hheader, hsize⟩ := hblob
  have hread : ∀ name, readProp ⟨blob, hheader⟩ 1 ⟨[0x2F#8, 0x6E#8], by decide⟩ name =
      .ok ((valueAt ⟨[0x2F#8, 0x6E#8], by decide⟩ name (visible unitTree.dt)).elim (.error (-errNotfound)) .ok) :=
    fun name => blob_lookup hblob (List.append_nil blob).symm (by decide) rfl hsize rfl (by decide)
  exact ⟨blob, hheader, hblob, hread _, hread _⟩

end Blobs

end PynqPrio.Libfdt
